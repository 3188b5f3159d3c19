import DocShapes.Proofs.Fields
import DocShapes.Proofs.Parts

/-! # Sites of a name lead to one definition

A channel stages every named part of the trees that it declares. The next merge makes each of them
stand for its name: they lead to the canonical definition of the name, whatever has become of them
before. No later operation changes that (`Reachable.site_identity`).
-/

namespace DocShapes.Catalog

variable {catalog before after : Catalog} {base : Nat} {feed : Feed} {channel : Channel}
  {name : String}

/-! ## Staged trees -/

/-- Every named part of the slot waits in the bucket of its name, declared by the channel. -/
def StagedWhole (catalog : Catalog) (channel : Channel) (slot : Slot) : Prop :=
  ∀ part, catalog.Reaches slot.target part → (catalog.definition part).isNamed = true →
    ⟨part, channel⟩ ∈ catalog.bucket (catalog.definition part).name

theorem bucket_enlist (catalog : Catalog) (declaration : Declaration) (name : String) :
    (catalog.enlist declaration).bucket name =
      if (catalog.definition declaration.id).name = name then
        catalog.bucket name ++ [declaration]
      else catalog.bucket name := by
  rw [bucket, enlist_pending, OrderedMap.get?_set]
  split
  · rename_i same
    rw [← same]
    rfl
  · rfl

theorem mem_bucket_enlist {declaration other : Declaration}
    (member : declaration ∈ catalog.bucket name) :
    declaration ∈ (catalog.enlist other).bucket name := by
  rw [bucket_enlist]
  split
  · exact List.mem_append_left _ member
  · exact member

/-- Staging several ids puts each of them into the bucket of its name. -/
theorem ends_stageDeclarations (channel : Channel) (ids : List TypeId) :
    Ends (ids.forM fun id => stageDeclaration ⟨id, channel⟩) catalog
      (fun _ after => after.arena = catalog.arena ∧
        (∀ name, catalog.bucket name ⊆ after.bucket name) ∧
        ∀ id ∈ ids, ⟨id, channel⟩ ∈ after.bucket (catalog.definition id).name)
      fun _ => False := by
  induction ids generalizing catalog with
  | nil => exact ⟨rfl, fun _ => List.Subset.refl _, by simp⟩
  | cons id rest ih =>
    rw [List.forM, ends_bind]
    have first : (⟨id, channel⟩ : Declaration) ∈
        (catalog.enlist ⟨id, channel⟩).bucket (catalog.definition id).name := by
      rw [bucket_enlist, if_pos rfl]
      exact List.mem_append_right _ List.mem_cons_self
    refine (@ih (catalog.enlist ⟨id, channel⟩)).imp fun _ after staged => ?_
    obtain ⟨arena, kept, others⟩ := staged
    exact ⟨arena, fun name => List.Subset.trans (fun _ member => mem_bucket_enlist member)
      (kept name), List.forall_mem_cons.mpr ⟨kept _ first, others⟩⟩

theorem target_stagedSlot (catalog : Catalog) (slot : Slot) :
    (catalog.stagedSlot slot).target = slot.target := by
  unfold stagedSlot
  split
  · split <;> rfl
  · rfl

theorem ends_stage_whole (consistent : catalog.Consistent) (channel : Channel) {slot : Slot}
    (held : catalog.Holds slot.target) :
    Ends (stage channel slot) catalog
      (fun found after => after.StagedWhole channel found ∧ after.Holds found.target)
      fun _ => False := by
  simp only [stage, ends_bind, ends_get, ends_pure]
  refine (ends_stageDeclarations channel _).imp fun _ after staged => ?_
  obtain ⟨arena, _, listed⟩ := staged
  rw [StagedWhole, target_stagedSlot]
  refine ⟨fun part reaches named => ?_, by rwa [Holds, arena]⟩
  have same : after.definition part = catalog.definition part := by
    rw [Catalog.definition, Catalog.definition, arena]
  rw [same] at named ⊢
  exact listed part (List.mem_filter.mpr
    ⟨(mem_reachable_iff consistent held).mpr (reaches.of_arena arena.symm), named⟩)

theorem Growth.staged {declaration : Declaration} (growth : Growth base before after)
    (member : declaration ∈ before.bucket name) : declaration ∈ after.bucket name := by
  induction growth with
  | refl => exact member
  | tail _ step ih => exact step.staged ih

/-- What is read later leaves a tree as it was, and its declarations where they are. -/
theorem StagedWhole.growth {slot : Slot} (staged : before.StagedWhole channel slot)
    (consistent : before.Consistent) (held : before.Holds slot.target)
    (growth : Growth before.arena.size before after) : after.StagedWhole channel slot := by
  have same {id : TypeId} (old : before.Holds id) : after.definition id = before.definition id :=
    growth.definition_eq (Nat.le_refl _) old
  intro part reaches named
  have within (id : TypeId) (earlier : before.Reaches slot.target id ∧ before.Holds id) :
      ∀ child ∈ (after.shape id).children,
        before.Reaches slot.target child ∧ before.Holds child := by
    intro child inside
    rw [Catalog.shape, same earlier.2] at inside
    exact ⟨earlier.1.tail inside, consistent.linked id earlier.2 child inside⟩
  obtain ⟨earlier, old⟩ := reaches.induction ⟨Relation.ReflTransGen.refl, held⟩ within
  rw [same old] at named ⊢
  exact growth.staged (staged part earlier named)

/-! ## Blocks of a channel -/

theorem ends_nextEntry_staged (grows : feed.Grows) (consistent : catalog.Consistent)
    (reading : catalog.Underway base) (channel : Channel) (eager : Bool) (prose : List String)
    (lines : List Outline.Line) :
    Ends (nextEntry feed ⟨some channel, eager⟩ prose lines) catalog
      (fun found after => ∀ next ∈ found, ∀ slot ∈ next.1.slot,
        after.StagedWhole channel slot ∧ after.Holds slot.target)
      fun _ => True := by
  induction lines generalizing prose catalog with
  | nil =>
    intro next member
    obtain ⟨doc, _, rfl⟩ := Option.map_eq_some_iff.mp member
    simp
  | cons line rest ih =>
    rw [nextEntry]
    refine ends_ite (fun _ => ih consistent reading _) fun _ => ?_
    rw [ends_bind]
    refine (ends_declaration? grows reading _ line).mono (fun slot? middle found => ?_)
      fun _ _ => trivial
    have further := found.1.consistent consistent
    cases slot? with
    | none => exact ih further (found.1.underway reading) _
    | some slot =>
      simp only [ends_bind, ends_pure]
      refine (ends_stage_whole further channel (found.2 slot rfl).2).mono
        (fun _ _ staged => ?_) fun _ _ => trivial
      simpa using staged

theorem drawEntries_succ (feed : Feed) (mode : Mode) (count : Nat) (lines : List Outline.Line) :
    drawEntries feed mode (count + 1) lines = do
      match ← attempt (nextEntry feed mode [] lines) with
      | .error error => return ([], some error)
      | .ok none => return ([], none)
      | .ok (some (entry, rest)) => do
          let (others, error?) ← drawEntries feed mode count rest
          return (entry :: others, error?) := by
  funext catalog
  simp only [drawEntries, bind, EStateM.bind, attempt]
  cases nextEntry feed mode [] lines catalog with
  | error => rfl
  | ok found =>
    cases found with
    | none => rfl
    | some => rfl

/-- An entry is staged when it is drawn, and the later ones leave it alone. -/
theorem ends_drawEntries_staged (grows : feed.Grows) (consistent : catalog.Consistent)
    (channel : Channel) (eager : Bool) (count : Nat) (lines : List Outline.Line) :
    Ends (drawEntries feed ⟨some channel, eager⟩ count lines) catalog
      (fun found after => ∀ entry ∈ found.1, ∀ slot ∈ entry.slot, after.StagedWhole channel slot)
      fun _ => False := by
  induction count generalizing catalog lines with
  | zero => simp [drawEntries]
  | succ count ih =>
    rw [drawEntries_succ, ends_bind]
    have reading := catalog.underway_size
    refine (ends_attempt ((ends_nextEntry grows reading ⟨some channel, eager⟩ [] lines).and
      (ends_nextEntry_staged grows consistent reading channel eager [] lines))).imp
        fun result middle drawn => ?_
    cases result with
    | error => simp
    | ok found =>
      cases found with
      | none => simp
      | some next =>
        obtain ⟨entry, rest⟩ := next
        obtain ⟨⟨grown, _⟩, staged⟩ := drawn
        have further := grown.consistent consistent
        have later := ends_drawEntries grows middle.underway_size ⟨some channel, eager⟩ count rest
        dsimp only
        rw [ends_bind]
        refine (later.and (ih further rest)).mono (fun found after more => ?_)
          fun _ ended => ended.1
        refine List.forall_mem_cons.mpr ⟨fun slot member => ?_, more.2⟩
        obtain ⟨whole, held⟩ := staged _ rfl slot member
        exact whole.growth further held more.1.1

theorem ends_joinEntries_staged (grows : feed.Grows) (consistent : catalog.Consistent)
    (channel : Channel) (eager : Bool) (text : String) (count : Nat) (docs : List (Option String))
    (slot? : Option Slot) (lines : List Outline.Line)
    (staged : ∀ slot ∈ slot?, catalog.StagedWhole channel slot ∧ catalog.Holds slot.target) :
    Ends (joinEntries feed ⟨some channel, eager⟩ text count docs slot? lines) catalog
      (fun entry after => ∀ slot ∈ entry.slot, after.StagedWhole channel slot)
      fun _ => True := by
  induction count generalizing catalog docs slot? lines with
  | zero => exact fun slot member => (staged slot member).1
  | succ count ih =>
    rw [joinEntries, ends_bind]
    have reading := catalog.underway_size
    refine ((ends_nextEntry grows reading ⟨some channel, eager⟩ [] lines).and
      (ends_nextEntry_staged grows consistent reading channel eager [] lines)).mono
        (fun found middle drawn => ?_) fun _ _ => trivial
    obtain ⟨⟨grown, _⟩, own⟩ := drawn
    have kept : ∀ slot ∈ slot?, middle.StagedWhole channel slot ∧ middle.Holds slot.target :=
      fun slot member =>
        ⟨(staged slot member).1.growth consistent (staged slot member).2 grown,
          grown.holds (staged slot member).2⟩
    cases found with
    | none => exact fun slot member => (kept slot member).1
    | some next =>
      obtain ⟨entry, rest⟩ := next
      refine ends_ite (fun _ => trivial) fun _ => ?_
      refine ih (grown.consistent consistent) _ _ rest fun slot member => ?_
      cases same : entry.slot with
      | none => exact kept slot (by simpa [same] using member)
      | some first => exact own _ rfl slot (by simpa [same] using member)

/-- A block that a channel declares gives entries; `parseBlock` may fail after them. -/
inductive Yields (channel : Channel) : Operation → Catalog → List Entry → Catalog → Prop
  | block {eager : Bool} {count : Nat} {text : String} {before after : Catalog}
      {entries : List Entry} {error? : Option Error}
      (done : parseBlock ⟨some channel, eager⟩ count text before = .ok (entries, error?) after) :
      Yields channel (.parseBlock ⟨some channel, eager⟩ count text) before entries after
  | entries {eager : Bool} {text : String} {before after : Catalog} {entries : List Entry}
      (done : parseEntries ⟨some channel, eager⟩ text before = .ok entries after) :
      Yields channel (.parseEntries ⟨some channel, eager⟩ text) before entries after
  | single {eager : Bool} {text : String} {before after : Catalog} {entry : Entry}
      (done : parseSingle ⟨some channel, eager⟩ text before = .ok entry after) :
      Yields channel (.parseSingle ⟨some channel, eager⟩ text) before [entry] after

theorem Yields.staged {operation : Operation} {entries : List Entry}
    (yields : Yields channel operation before entries after) (consistent : before.Consistent) :
    ∀ entry ∈ entries, ∀ slot ∈ entry.slot, after.StagedWhole channel slot := by
  cases yields with
  | block done =>
    exact (ends_drawEntries_staged (grows_feedWithin _) consistent channel _ _ _).of_ok done
  | entries done =>
    rename_i eager text
    suffices ends : Ends (parseEntries ⟨some channel, eager⟩ text) before
        (fun found after => ∀ entry ∈ found, ∀ slot ∈ entry.slot, after.StagedWhole channel slot)
        fun _ => True from ends.of_ok done
    rw [parseEntries, allEntries, ends_bind]
    refine (ends_drawEntries_staged (grows_feedWithin _) consistent channel eager _ _).mono
      (fun found _ staged => ?_) fun _ ended => ended.elim
    obtain ⟨entries, error?⟩ := found
    cases error? with
    | none => exact staged
    | some => trivial
  | single done =>
    rw [List.forall_mem_singleton]
    exact (ends_joinEntries_staged (grows_feedWithin _) consistent channel _ _ _ _ _ _
      (by simp)).of_ok done

theorem Yields.eq_leaves {operation : Operation} {entries : List Entry}
    (yields : Yields channel operation before entries after) :
    after = leaves operation.perform before := by
  cases yields with
  | @block _ _ _ _ _ _ error? done =>
    refine ends_leaves_iff.mp ?_
    rw [Operation.perform, ends_bind]
    unfold Ends
    rw [done]
    exact ends_failWith error? rfl
  | entries done => simp [leaves, Operation.perform, Functor.map, EStateM.map, done]
  | single done => simp [leaves, Operation.perform, Functor.map, EStateM.map, done]

/-- What merges after the whole run merges after the rest of it. -/
theorem Yields.merges {operation : Operation} {entries : List Entry} {later : List Operation}
    (yields : Yields channel operation before entries after)
    (runs : succeeds mergePending (before.run (operation :: later)) = true) :
    ∃ merged, mergePending (after.run later) = .ok () merged := by
  rw [run, List.foldl_cons, ← yields.eq_leaves] at runs
  obtain ⟨_, merges⟩ := eq_ok_of_succeeds runs
  exact ⟨_, merges⟩

/-! ## Standing for a name for good -/

theorem GrowthStep.names {id : TypeId} (step : GrowthStep base before after)
    (names : before.Names id name) : after.Names id name := by
  cases step with
  | append _ _ _ _ _ appended =>
    obtain ⟨shape, extra, rfl, grown, _⟩ := appended
    exact names.put grown.isNamed grown.name
  | document => exact names.put rfl rfl
  | enlist => exact names.of_arena rfl
  | introduce => exact (names.push _).of_arena rfl
  | _ => exact names.push _

theorem NamingStep.names {id : TypeId} (step : NamingStep before after)
    (consistent : before.Consistent) (names : before.Names id name) : after.Names id name := by
  cases step with
  | redefine registrable _ present =>
    have own := consistent.owned _ _ (known?_of_provisional registrable.free present)
    exact names.put (registrable.named.trans own.named.symm) own.same.symm
  | respell => exact names.of_arena rfl
  | _ => exact (names.push _).of_arena rfl

theorem NamingStep.canonical {id : TypeId} (step : NamingStep before after)
    (found : before.canonical.get? name = some id) : after.canonical.get? name = some id := by
  cases step with
  | @establish definition registrable =>
    have different : definition.name ≠ name := by
      rintro rfl
      simp [registrable.free] at found
    simpa [OrderedMap.get?_set, different] using found
  | _ => exact found

theorem SettlingStep.names {id : TypeId} (step : SettlingStep before after)
    (names : before.Names id name) : after.Names id name := by
  cases step with
  | relink => exact names.put (isNamed_relink _ _) (name_relink _ _)
  | _ => exact names.of_arena rfl

theorem Replaced.names {definition : Definition} {place id : TypeId}
    (replaced : Replaced definition place before after) (consistent : before.Consistent)
    (names : before.Names id name) : after.Names id name := by
  obtain ⟨registrable, _, present, rfl⟩ := replaced
  have own := consistent.owned _ _ (known?_of_provisional registrable.free present)
  exact (names.put (registrable.named.trans own.named.symm) own.same.symm).of_arena rfl

theorem Replaced.canonical {definition : Definition} {place id : TypeId}
    (replaced : Replaced definition place before after)
    (found : before.canonical.get? name = some id) : after.canonical.get? name = some id := by
  obtain ⟨registrable, _, _, rfl⟩ := replaced
  have different : definition.name ≠ name := by
    rintro rfl
    simp [registrable.free] at found
  simpa [OrderedMap.get?_set, different] using found

/-- A canonical name keeps its definition. -/
theorem Change.canonical {id : TypeId} (change : Change before after)
    (found : before.canonical.get? name = some id) : after.canonical.get? name = some id := by
  cases change with
  | growth step => exact step.untouched.canonical.symm ▸ found
  | naming step => exact step.canonical found
  | replacing step => exact step.canonical found
  | settling step => exact step.canonical found
  | merging step => exact step.canonical found

theorem SettlingStep.standsFor {id : TypeId} (step : SettlingStep before after)
    (consistent : before.Consistent) (stands : before.StandsFor id name) :
    after.StandsFor id name := by
  have names := step.names stands.names
  have canonical {target : TypeId} (found : before.canonical.get? name = some target) :
      after.canonical.get? name = some target := step.canonical found
  have further := step.consistent consistent
  cases step with
  | @withdraw source target held _ looked =>
    refine stands.withdraw consistent further fun same => ?_
    subst same
    -- A known name is not a spelling, so it is looked up as it is.
    have known := consistent.named source held stands.names.named
    rwa [resolveAlias, AliasTable.resolve_of_not_isSpelling (consistent.unspelled _ known),
      stands.names.same] at looked
  | _ => exact stands.of_forward rfl names canonical

theorem Settling.standsFor {id : TypeId} (settling : Settling before after)
    (consistent : before.Consistent) (stands : before.StandsFor id name) :
    after.StandsFor id name := by
  induction settling with
  | refl => exact stands
  | tail others step ih => exact step.standsFor (Settling.consistent others consistent) ih

theorem Change.standsFor {id : TypeId} (change : Change before after)
    (consistent : before.Consistent) (stands : before.StandsFor id name) :
    after.StandsFor id name := by
  have canonical {target : TypeId} (found : before.canonical.get? name = some target) :
      after.canonical.get? name = some target := change.canonical found
  cases change with
  | growth step =>
    exact stands.of_forward step.untouched.forward (step.names stands.names) canonical
  | naming step =>
    have forward : after.forward = before.forward := by cases step <;> rfl
    exact stands.of_forward forward (step.names consistent stands.names) canonical
  | replacing step =>
    have forward : after.forward = before.forward := by rw [step.change]; rfl
    exact stands.of_forward forward (step.names consistent stands.names) canonical
  | settling step => exact step.standsFor consistent stands
  | merging step => exact step.standsFor consistent stands

/-- What outlasts every single change outlasts a run of any operations. -/
theorem run_changes {holds : Catalog → Prop} {operations : List Operation}
    (permits : before.Permits operations)
    (change : ∀ before after : Catalog, before.Consistent → holds before → Change before after →
      holds after)
    (consistent : before.Consistent) (start : holds before) : holds (before.run operations) := by
  suffices both : (before.run operations).Consistent ∧ holds (before.run operations) from both.2
  induction operations generalizing before with
  | nil => exact ⟨consistent, start⟩
  | cons operation rest ih =>
    have changes := Move.changes ⟨operation, permits.1, rfl⟩ consistent
    have next : (leaves operation.perform before).Consistent ∧
        holds (leaves operation.perform before) := by
      generalize leaves operation.perform before = after at changes
      induction changes with
      | refl => exact ⟨consistent, start⟩
      | tail _ step earlier =>
        exact ⟨step.consistent earlier.1, change _ _ earlier.1 earlier.2 step⟩
    exact ih permits.2 next.1 next.2

/-- A definition that stands for a name always leads to the same definition. -/
theorem StandsFor.run {id : TypeId} {operations : List Operation}
    (stands : before.StandsFor id name) (consistent : before.Consistent)
    (permits : before.Permits operations) :
    (before.run operations).canonical? name = some (before.follow id) ∧
      (before.run operations).follow id = before.follow id := by
  have further : (before.run operations).Consistent :=
    run_changes permits (fun _ _ consistent _ change => change.consistent consistent) consistent
      consistent
  have kept : (before.run operations).canonical.get? name = some (before.follow id) :=
    run_changes permits (fun _ _ _ found change => change.canonical found) consistent
      stands.canonical
  have own : (before.run operations).StandsFor id name :=
    run_changes permits (fun _ _ consistent stands change => change.standsFor consistent stands)
      consistent stands
  exact ⟨further.canonical?_eq kept, Option.some.inj (own.canonical.symm.trans kept)⟩

/-! ## Reachable catalogs -/

/-- After a merge whatever was staged stands for its name. -/
theorem standsFor_of_mergePending (consistent : before.Consistent)
    (merges : mergePending before = .ok () after) {declaration : Declaration}
    (staged : declaration ∈ before.bucket name) : after.StandsFor declaration.id name := by
  obtain ⟨middle, merged⟩ := (ends_mergePending consistent).of_ok merges
  unfold bucket at staged
  cases found : before.pending.get? name with
  | none => simp [found] at staged
  | some bucket =>
    rw [found] at staged
    exact merged.settling.standsFor (merged.merging.consistent consistent)
      (merged.merged.stand name bucket (OrderedMap.mem_entries_of_get? found) declaration staged)

/-- Every named part of a tree that a channel has declared leads, from the next merge on and
whatever is done later, to the one definition that its name has in the catalog. -/
theorem Reachable.site_identity {start parsed merged : Catalog} {block : Operation}
    {entries : List Entry} {between : List Operation} (reachable : start.Reachable)
    (yields : Yields channel block start entries parsed)
    (permits : parsed.Permits between) (unmerged : .mergePending ∉ between)
    (merges : mergePending (parsed.run between) = .ok () merged) :
    ∀ entry ∈ entries, ∀ slot ∈ entry.slot, ∀ part, parsed.Reaches slot.target part →
      (parsed.definition part).isNamed = true →
        ∃ id, ∀ later, merged.Permits later →
          (merged.run later).canonical? (parsed.definition part).name = some id ∧
            (merged.run later).follow part = id := by
  intro entry member slot inside part reaches named
  have allowed : block.Allowed start := by cases yields <;> trivial
  have move : Move start parsed := ⟨block, allowed, yields.eq_leaves⟩
  have waits := yields.staged reachable.consistent entry member slot inside part reaches named
  obtain ⟨consistent, staged⟩ := run_induction permits unmerged (registersWithin_true _ _)
    (fun _ _ _ staged change => change.staged staged) (reachable.move move).consistent waits
  have stands := standsFor_of_mergePending consistent merges staged
  have further : merged.Consistent := by
    obtain ⟨_, all⟩ := (ends_mergePending consistent).of_ok merges
    exact all.consistent consistent
  exact ⟨merged.follow part, fun later permits => stands.run further permits⟩

/-- A block with a declaration and with mentions of its name in other trees. -/
def mentionBlock : Operation :=
  .parseEntries ⟨some .read, false⟩ "x : list(Foo)\ny : Foo\n    a : ref(Foo)"

/-- The name comes to stand for another definition before the merge. -/
def mentionBetween : List Operation := [.loadExtension "Foo : record\n    b : int" none]

theorem site_identity_mentionBlock :
    ∃ entries parsed merged, Yields .read mentionBlock empty entries parsed ∧
      entries.length = 2 ∧ mergePending (parsed.run mentionBetween) = .ok () merged ∧
      ∀ entry ∈ entries, ∀ slot ∈ entry.slot, ∀ part, parsed.Reaches slot.target part →
        (parsed.definition part).isNamed = true →
          ∃ id, ∀ later, merged.Permits later →
            (merged.run later).canonical? (parsed.definition part).name = some id ∧
              (merged.run later).follow part = id := by
  have reachable : Reachable empty := @reachable_run .standard _ [] rfl trivial
  have reads : succeedsWith (fun entries => entries.length == 2)
      (parseEntries ⟨some .read, false⟩ "x : list(Foo)\ny : Foo\n    a : ref(Foo)") empty =
        true := by
    decide +kernel
  have runs : succeeds mergePending (empty.run (mentionBlock :: mentionBetween)) = true := by
    decide +kernel
  obtain ⟨entries, read, two⟩ := eq_ok_of_succeedsWith reads
  generalize leaves _ empty = parsed at read
  have yields : Yields .read mentionBlock empty entries parsed := .entries read
  obtain ⟨merged, merges⟩ := yields.merges runs
  have permits : parsed.Permits mentionBetween := ⟨trivial, trivial⟩
  have unmerged : .mergePending ∉ mentionBetween := by
    intro member
    cases List.mem_singleton.mp member
  exact ⟨entries, parsed, merged, yields, beq_iff_eq.mp two, merges,
    reachable.site_identity yields permits unmerged merges⟩

end DocShapes.Catalog
