import DocShapes.Proofs.Retracing

/-! # Bodies fed in two catalogs

A body that is fed into the types of one spec in two catalogs declares the same fields or the same
item there. With the feed of the parser this closes the comparison of blocks
(`simulates_parseEntries`), and of several blocks that are staged in turn (`simulates_stageBlocks`).
-/

namespace DocShapes.Catalog

open Outline (Line)

variable {comparison : Comparison} {left right : Catalog} {feed : Feed}
  {linked : TypeId → TypeId → Prop}

/-! ## What a body comes to -/

/-- The same prose around slots of linked types. -/
structure Content.Twin (linked : TypeId → TypeId → Prop) (one other : Content) : Prop where
  lead : other.lead = one.lead
  slots : List.Forall₂ (Slot.Twin linked) one.slots other.slots
  tail : other.tail = one.tail

theorem twin_withProse {slot slot' : Slot} (twin : slot.Twin linked slot')
    (doc : Option String) : (withProse doc slot).Twin linked (withProse doc slot') := by
  cases twin with
  | bare target => exact .bare target
  | sited site =>
    refine .sited ⟨site.target, site.name, ?_, site.qualifiers⟩
    dsimp only
    rw [site.doc]

theorem Content.Twin.add {content content' : Content} (twin : content.Twin linked content')
    {entry entry' : Entry} (twins : entry.Twin linked entry') :
    (content.add entry).Twin linked (content'.add entry') := by
  have empty : content'.slots.isEmpty = content.slots.isEmpty := by
    rw [Bool.eq_iff_iff, List.isEmpty_iff_length_eq_zero, List.isEmpty_iff_length_eq_zero,
      twin.slots.length_eq]
  obtain ⟨doc, slot⟩ := entry
  obtain ⟨doc', slot'⟩ := entry'
  obtain rfl : doc' = doc := twins.doc
  have slots : Option.Rel (Slot.Twin linked) slot slot' := twins.slot
  unfold Content.add
  cases slots with
  | none => exact ⟨twin.lead, twin.slots, rfl⟩
  | some own =>
    dsimp only
    rw [empty]
    split
    · exact ⟨rfl, .cons own .nil, twin.tail⟩
    · exact ⟨twin.lead, List.rel_append twin.slots (.cons (twin_withProse own _) .nil), twin.tail⟩

theorem Content.twin_ofEntries {entries entries' : List Entry}
    (same : List.Forall₂ (Entry.Twin linked) entries entries') :
    (Content.ofEntries entries).Twin linked (Content.ofEntries entries') :=
  List.rel_foldl (fun _ _ twin _ _ twins => twin.add twins) ⟨rfl, .nil, rfl⟩ same

theorem echoes_namedFields (owner : String) {slots slots' : List Slot}
    (same : List.Forall₂ (Slot.Twin linked) slots slots') :
    Echoes (namedFields owner slots) (namedFields owner slots')
      (List.Forall₂ (Site.Twin linked)) := by
  refine echoes_mapM (fun slot slot' twin => ?_) same
  cases twin with
  | bare => exact echoes_error _
  | @sited site site' twin =>
    dsimp only
    rw [twin.name]
    split
    · exact echoes_pure twin
    · exact echoes_error _

theorem simulates_recordOf (compares : Compares comparison left right) {slots slots' : List Slot}
    (same : List.Forall₂ (Slot.Twin comparison.Links) slots slots') :
    Simulates (itemOfBody.recordOf slots) left (itemOfBody.recordOf slots') right
      fun item after item' later =>
        item.Twin comparison.Links item' ∧ Compares comparison after later := by
  rw [itemOfBody.recordOf, itemOfBody.recordOf]
  refine (echoes_namedFields "record" same).ofExcept.bind ?_
  rintro fields _ fields' _ _ _ ⟨twins, rfl, rfl⟩
  have filled := Edit.simulates_setFields twins
    (Definition.twin_ofShape (Shape.Twin.anonymous .nil))
  cases record : Edit.setFields fields (.ofShape (.anonymous [])) with
  | error error => exact simulates_throw error
  | ok found definition =>
    obtain ⟨_, definition', record', twin⟩ := filled found definition record
    obtain ⟨shape, _, rfl, grown, _⟩ := (ends_setFields fields).of_ok record
    obtain ⟨shape', _, rfl, _⟩ := (ends_setFields fields').of_ok record'
    rw [record']
    refine (simulates_allocate compares twin.shape grown.isNamed ?_).bind
      fun _ _ _ _ _ _ made => simulates_pure ⟨.bare made.1, made.2⟩
    rw [grown.base]
    exact Base.noConfusion

theorem simulates_itemOfBody (compares : Compares comparison left right) {slots slots' : List Slot}
    (same : List.Forall₂ (Slot.Twin comparison.Links) slots slots') :
    Simulates (itemOfBody slots) left (itemOfBody slots') right
      fun item after item' later =>
        item.Twin comparison.Links item' ∧ Compares comparison after later := by
  have whole := simulates_recordOf compares same
  cases same with
  | nil => exact whole
  | cons first rest =>
    cases rest with
    | cons => cases first <;> exact whole
    | nil =>
      cases first with
      | bare target => exact simulates_pure ⟨.bare target, compares⟩
      | sited site =>
        refine simulates_ite (by rw [site.name]) (fun _ _ => ?_) fun _ _ => whole
        exact simulates_pure ⟨.sited site, compares⟩

/-! ## Bodies that are taken -/

/-- A change that gives twins from twins and adds slots only is a change of both catalogs. -/
theorem simulates_edit (compares : Compares comparison left right) {id id' : TypeId}
    (links : comparison.Links id id') (held : left.Holds id)
    (untold : (left.definition id).isNamed = true →
      comparison.told (left.definition id).name = none) {change change' : Edit Unit}
    (changes : ∀ {definition definition'}, definition.Twin comparison.Links definition' →
      Simulates change definition change' definition'
        fun _ after _ later => after.Twin comparison.Links later)
    {given given' : List Slot}
    (appends : ∀ definition, Ends change definition
      (fun _ after => definition.Appended given after) fun _ => True)
    (appends' : ∀ definition, Ends change' definition
      (fun _ after => definition.Appended given' after) fun _ => True) :
    Simulates (edit id change) left (edit id' change') right
      fun _ after _ later => Compares comparison after later ∧ after.Holds id ∧
        ((after.definition id).isNamed = true →
          comparison.told (after.definition id).name = none) := by
  obtain ⟨twin, plain, record⟩ := (compares.definitions links held).toTwin untold
  intro found after done
  cases changed : change (left.definition id) with
  | error error definition =>
    simp only [edit, get_bind, changed] at done
    obtain ⟨_, _, _, thrown⟩ := of_bind_eq_ok done
    cases thrown
  | ok result definition =>
    simp only [edit, get_bind, changed] at done
    cases done
    obtain ⟨_, definition', changed', twins⟩ := changes twin result definition changed
    refine ⟨⟨⟩, right.put id' definition', by simp only [edit, get_bind, changed']; rfl, ?_⟩
    obtain ⟨shape, extra, rfl, grown, _⟩ := (appends _).of_ok changed
    obtain ⟨shape', extra', rfl, grown', _⟩ := (appends' _).of_ok changed'
    have name : shape.name = (left.definition id).name := grown.name
    have still (named : shape.isNamed = true) : comparison.told shape.name = none := by
      rw [name]
      exact untold (grown.isNamed.symm.trans named)
    refine ⟨compares.put links (.twin twins plain fun named =>
        ⟨still named, grown.base.trans (record (grown.isNamed.symm.trans named))⟩) grown.base
      grown'.base grown.name grown'.name, (holds_put _ _ _ _).mpr held, ?_⟩
    have own := definition_put_self held { left.definition id with shape }
    change ((left.put id _).definition id).isNamed = true →
      comparison.told ((left.put id _).definition id).name = none
    rw [own]
    exact still

/-- The doc of a body goes to a type that has just got its name, and to the site otherwise. -/
theorem simulates_documented (compares : Compares comparison left right) {id id' : TypeId}
    (links : comparison.Links id id') (held : left.Holds id)
    (untold : (left.definition id).isNamed = true →
      comparison.told (left.definition id).name = none) (fresh : Bool) (doc : Option String) :
    Simulates (if (fresh && doc.isSome) = true then do
        setDefinition id { (← get).definition id with doc }
        return none
      else return doc) left
      (if (fresh && doc.isSome) = true then do
        setDefinition id' { (← get).definition id' with doc }
        return none
      else return doc) right
      fun doc after doc' later => doc' = doc ∧ Compares comparison after later := by
  refine simulates_ite Iff.rfl (fun _ _ => ?_) fun _ _ => simulates_pure ⟨rfl, compares⟩
  obtain ⟨twin, plain, record⟩ := (compares.definitions links held).toTwin untold
  intro result state done
  cases done
  exact ⟨none, _, rfl, rfl, compares.put links
    (.twin ⟨twin.shape, rfl, twin.annotations⟩ plain fun named => ⟨untold named, record named⟩)
      rfl rfl rfl rfl⟩

theorem simulates_feedTarget (grows : feed.Grows) (retraces : feed.Retraces comparison)
    (consistent : left.Consistent) (consistent' : right.Consistent)
    (compares : Compares comparison left right) {id id' : TypeId}
    (links : comparison.Links id id') (held : left.Holds id)
    (untold : (left.definition id).isNamed = true →
      comparison.told (left.definition id).name = none)
    {body : List String} (spares : comparison.Spares (Outline.ofLines body)) :
    Simulates (feedTarget feed id body) left (feedTarget feed id' body) right
      fun doc after doc' later => doc' = doc ∧ Compares comparison after later := by
  have twin := compares.shape_twin links held untold
  have admits (eager : Bool) : comparison.Admits ⟨none, eager⟩ := fun channel => absurd rfl channel
  rw [feedTarget, feedTarget]
  refine simulates_get ?_
  dsimp only
  rw [twin.shape.isRecordLike, twin.isNamed, twin.isShell, twin.name]
  refine (simulates_allEntries grows retraces (admits _) consistent consistent' compares
    spares).bind ?_
  rintro entries middle entries' middle' done done' ⟨same, compared⟩
  have grown := ((ends_allEntries grows left.underway_size _ _).of_ok done).1
  have kept : middle.definition id = left.definition id :=
    grown.definition_eq (Nat.le_refl _) held
  have heldStill := grown.holds held
  have owned := Content.forall_ofEntries entries
    ((ends_allEntries grows left.underway_size _ _).of_ok done).2
  have own := Content.twin_ofEntries same
  generalize Content.ofEntries entries = content at own owned ⊢
  generalize Content.ofEntries entries' = content' at own ⊢
  rw [own.lead, own.tail]
  have empty : content'.slots.isEmpty = content.slots.isEmpty := by
    rw [Bool.eq_iff_iff, List.isEmpty_iff_length_eq_zero, List.isEmpty_iff_length_eq_zero,
      own.slots.length_eq]
  rw [empty]
  refine simulates_ite Iff.rfl (fun _ _ => ?_) fun _ _ =>
    simulates_ite Iff.rfl (fun _ _ => ?_) fun _ _ => ?_
  · refine (echoes_namedFields _ own.slots).ofExcept.bind ?_
    rintro fields _ fields' _ _ _ ⟨twins, rfl, rfl⟩
    refine (simulates_edit compared links heldStill (by rwa [kept])
      (Edit.simulates_pushFields twins)
      (fun definition => (Edit.ends_pushFields fields definition).mono (fun _ _ more => more)
        fun _ _ => trivial)
      (fun definition => (Edit.ends_pushFields fields' definition).mono (fun _ _ more => more)
        fun _ _ => trivial)).bind fun _ _ _ _ _ _ edited => ?_
    exact simulates_documented edited.1 links edited.2.1 edited.2.2 _ _
  · refine (simulates_itemOfBody compared own.slots).bind ?_
    rintro item state item' state' made _ ⟨twins, further⟩
    have growth := (ends_itemOfBody grown.size_le owned).of_ok made
    have unchanged : state.definition id = left.definition id :=
      (growth.1.definition_eq grown.size_le held).trans kept
    refine (simulates_edit further links (growth.1.holds heldStill) (by rwa [unchanged])
      (Edit.simulates_setInner twins)
      (fun definition => (Edit.ends_setInner item definition).mono (fun _ _ more => more)
        fun _ _ => trivial)
      (fun definition => (Edit.ends_setInner item' definition).mono (fun _ _ more => more)
        fun _ _ => trivial)).bind fun _ _ _ _ _ _ edited => ?_
    exact simulates_documented edited.1 links edited.2.1 edited.2.2 _ _
  · exact simulates_documented compared links heldStill (by rwa [kept]) _ _

/-- The feed of the parser retraces itself, to any depth. -/
theorem retraces_feedWithin (depth : Nat) : (feedWithin depth).Retraces comparison := by
  induction depth with
  | zero =>
    intro left right spec id id' body _ _ typed _ _
    exact simulates_pure ⟨rfl, typed.compares⟩
  | succ depth ih =>
    intro left right spec id id' body consistent consistent' typed untold spares
    rw [feedWithin]
    refine simulates_ite Iff.rfl (fun _ _ => simulates_pure ⟨rfl, typed.compares⟩)
      fun filled _ => simulates_get ?_
    have held := typed.represents.held
    have untold := untold (by simpa using filled)
    have own := typed.represents.bodyTarget? (Nat.lt_succ_of_lt held)
    have own' := typed.represents'.bodyTarget? (Nat.lt_succ_of_lt typed.represents'.held)
    rw [typed.compares.intake?_eq spec untold] at own'
    cases takes : left.intake? spec with
    | none =>
      rw [takes] at own own'
      rw [own, own']
      exact simulates_pure ⟨rfl, typed.compares⟩
    | some intake =>
      rw [takes] at own own'
      obtain ⟨target, found, innermost, empty, _⟩ := own
      obtain ⟨target', found', innermost', empty', _⟩ := own'
      rw [found, found']
      have links := innermost.links typed.compares consistent held empty.ne_list typed.links
        innermost' empty'.ne_list
      have targetHeld : left.Holds target :=
        (innermost.kept consistent.linked (fun _ _ => rfl) held).2
      refine simulates_feedTarget (grows_feedWithin depth) ih consistent consistent' typed.compares
        links targetHeld (fun named => ?_) spares
      exact untold _ (typed.represents.fed?_of_isNamed innermost named)

/-! ## Whole blocks -/

theorem simulates_parseEntries {mode : Mode} (admits : comparison.Admits mode) {text : String}
    (consistent : left.Consistent) (consistent' : right.Consistent)
    (compares : Compares comparison left right)
    (spares : comparison.Spares (Outline.ofText text)) :
    Simulates (parseEntries mode text) left (parseEntries mode text) right
      fun entries after entries' later =>
        List.Forall₂ (Entry.Twin comparison.Links) entries entries' ∧
          Compares comparison after later :=
  simulates_allEntries (grows_feedWithin _) (retraces_feedWithin _) admits consistent consistent'
    compares spares

/-- A block of declarations that a channel reads. -/
structure Block where
  channel : Channel
  eager : Bool
  text : String

/-- Channels read blocks one after the other; the result is what the blocks declare. -/
def stageBlocks : List Block → CatalogM (List Slot)
  | [] => return []
  | block :: blocks => do
    let entries ← parseEntries ⟨some block.channel, block.eager⟩ block.text
    return entries.filterMap Entry.slot ++ (← stageBlocks blocks)

theorem simulates_stageBlocks (staging : comparison.staging = true) (blocks : List Block)
    (consistent : left.Consistent) (consistent' : right.Consistent)
    (compares : Compares comparison left right)
    (spares : ∀ block ∈ blocks, comparison.Spares (Outline.ofText block.text)) :
    Simulates (stageBlocks blocks) left (stageBlocks blocks) right
      fun slots after slots' later =>
        List.Forall₂ (Slot.Twin comparison.Links) slots slots' ∧
          Compares comparison after later := by
  induction blocks generalizing left right with
  | nil => exact simulates_pure ⟨.nil, compares⟩
  | cons block blocks ih =>
    obtain ⟨first, others⟩ := List.forall_mem_cons.mp spares
    rw [stageBlocks]
    refine (simulates_parseEntries (fun _ => staging) consistent consistent' compares first).bind
      fun entries middle entries' middle' done done' ⟨twins, compared⟩ => ?_
    have grown := ((ends_parseEntries left.underway_size _ _).of_ok done).1
    have grown' := ((ends_parseEntries right.underway_size _ _).of_ok done').1
    refine (ih (grown.consistent consistent) (grown'.consistent consistent') compared others).bind
      fun _ _ _ _ _ _ more => simulates_pure ⟨List.rel_append ?_ more.1, more.2⟩
    exact List.rel_filterMap (fun _ _ twin => twin.slot) twins

end DocShapes.Catalog
