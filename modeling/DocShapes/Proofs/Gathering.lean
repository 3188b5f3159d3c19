import DocShapes.Proofs.Gains

/-! # Blocks on a fresh catalog

As long as channels read blocks and nothing else happens, every definition with a name waits in the
bucket of its name, and it waits there once (`Gathered`). Nothing is canonical and nothing is
retired yet.
-/

namespace DocShapes.Catalog

open Outline (Line)

variable {catalog before middle after : Catalog} {channel : Channel} {name : String}
  {base : Nat} {feed : Feed}

/-! ## Gathered declarations -/

/-- All definitions come from blocks that channels have declared, and nothing is merged yet. -/
structure Gathered (catalog : Catalog) : Prop where
  consistent : catalog.Consistent
  documented : catalog.Documented
  whole : ∀ id, catalog.Holds id → (catalog.definition id).isNamed = true →
    ∃ channel, ⟨id, channel⟩ ∈ catalog.bucket (catalog.definition id).name
  once : ∀ name, ((catalog.bucket name).map Declaration.id).Nodup
  canonical : catalog.canonical = .empty
  forward : catalog.forward = .empty

/-- A slot that a block has given: one to a definition with a name has room for a doc, and the doc
of the declaration stands either there or on the definition. -/
structure Rooted (catalog : Catalog) (slot : Slot) : Prop where
  held : catalog.Holds slot.target
  once : catalog.DocOnce slot
  sited : (catalog.definition slot.target).isNamed = true → ∃ site, slot = .sited site

theorem Rooted.growth {slot : Slot} (rooted : before.Rooted slot)
    (growth : Growth before.arena.size before after) : after.Rooted slot := by
  have same := growth.definition_eq (Nat.le_refl _) rooted.held
  exact ⟨growth.holds rooted.held, by rw [DocOnce, same]; exact rooted.once,
    by rw [same]; exact rooted.sited⟩

/-- A bucket that is not empty waits to be merged. -/
theorem mem_pending_of_mem_bucket {declaration : Declaration}
    (member : declaration ∈ catalog.bucket name) :
    (name, catalog.bucket name) ∈ catalog.pending.entries := by
  unfold bucket at member ⊢
  cases found : catalog.pending.get? name with
  | none => simp [found] at member
  | some staged => exact OrderedMap.mem_entries_of_get? found

/-! ## Staging once -/

theorem nodup_reachableFrom (fuel : Nat) (stack seen : List TypeId) (distinct : seen.Nodup) :
    (catalog.reachableFrom fuel stack seen).Nodup := by
  induction fuel generalizing stack seen with
  | zero => simpa [reachableFrom] using distinct
  | succ fuel ih =>
    cases stack with
    | nil => simpa [reachableFrom] using distinct
    | cons id stack =>
      rw [reachableFrom]
      split
      · exact ih stack seen distinct
      · rename_i unseen
        refine ih _ _ (List.nodup_append.mpr ⟨distinct, by simp, fun other member own last => ?_⟩)
        rintro rfl
        exact unseen (List.mem_singleton.mp last ▸ member)

/-- Staging puts the ids of a name behind the declarations in its bucket. -/
theorem ends_stageDeclarations_bucket (channel : Channel) (ids : List TypeId) :
    Ends (ids.forM fun id => stageDeclaration ⟨id, channel⟩) catalog
      (fun _ after => ∀ name, (after.bucket name).map Declaration.id =
        (catalog.bucket name).map Declaration.id ++
          ids.filter fun id => (catalog.definition id).name = name)
      fun _ => False := by
  induction ids generalizing catalog with
  | nil => simp
  | cons id rest ih =>
    rw [List.forM, ends_bind]
    refine (@ih (catalog.enlist ⟨id, channel⟩)).imp fun _ after staged name => ?_
    rw [staged name, bucket_enlist]
    split
    · rename_i same
      rw [List.filter_cons_of_pos (by simpa using same), List.map_append, List.append_assoc]
      rfl
    · rename_i different
      rw [List.filter_cons_of_neg (by simpa using different)]
      rfl

theorem ends_stage_bucket (channel : Channel) (slot : Slot) :
    Ends (stage channel slot) catalog
      (fun found after => found = catalog.stagedSlot slot ∧ after.arena = catalog.arena ∧
        (∀ name, catalog.bucket name ⊆ after.bucket name) ∧
        ∀ name, (after.bucket name).map Declaration.id =
          (catalog.bucket name).map Declaration.id ++
            (catalog.namedReachable slot.target).filter fun id =>
              (catalog.definition id).name = name)
      fun _ => False := by
  simp only [stage, ends_bind, ends_get, ends_pure]
  exact ((ends_stageDeclarations channel _).and (ends_stageDeclarations_bucket channel _)).mono
    (fun _ _ staged => ⟨trivial, staged.1.1, staged.1.2.1, staged.2⟩) fun _ ended => ended.1

/-- A slot that has been read is staged as a whole, and nothing is staged twice. -/
theorem ends_stage_gathered (gathered : before.Gathered)
    (growth : Growth before.arena.size before middle) {slot : Slot}
    (own : middle.HoldsFrom before.arena.size slot.target)
    (gains : Gains before [slot.target] middle) (once : middle.DocOnce slot)
    (channel : Channel) :
    Ends (stage channel slot) middle (fun found after => after.Gathered ∧ after.Rooted found)
      fun _ => False := by
  have reading := growth.underway before.underway_size
  have consistent := growth.consistent gathered.consistent
  have before_bucket (name : String) : middle.bucket name = before.bucket name := by
    rw [bucket, gains.pending, ← bucket]
  refine ((ends_stage_bucket channel slot).and
    ((ends_stage reading channel own).and (ends_stage_whole consistent channel own.2))).mono
      (fun found after staged => ?_) fun _ ended => ended.1
  obtain ⟨⟨rfl, arena, kept, exact⟩, ⟨further, held⟩, whole, _⟩ := staged
  have same (id : TypeId) : after.definition id = middle.definition id := by
    rw [Catalog.definition, Catalog.definition, arena]
  have untouched := growth.untouched.trans further.untouched
  rw [StagedWhole, target_stagedSlot] at whole
  refine ⟨⟨further.consistent consistent, fun id => ?_, fun id idHeld named => ?_, fun name => ?_,
    untouched.canonical.trans gathered.canonical, untouched.forward.trans gathered.forward⟩,
    held.2, ?_, ?_⟩
  · rw [same]
    exact gains.documented gathered.documented id
  · rw [Holds, arena] at idHeld
    by_cases old : before.Holds id
    · have unchanged := growth.definition_eq (Nat.le_refl _) old
      rw [same, unchanged] at named ⊢
      obtain ⟨channel, member⟩ := gathered.whole id old named
      rw [← before_bucket] at member
      exact ⟨channel, kept _ member⟩
    · obtain ⟨root, member, reaches⟩ := gains.whole id ⟨Nat.le_of_not_lt old, idHeld⟩
      rw [List.mem_singleton.mp member] at reaches
      exact ⟨channel, whole id (reaches.of_arena arena) named⟩
  · rw [exact, before_bucket, List.nodup_append]
    refine ⟨gathered.once name, ?_, fun id earlier other later equal => ?_⟩
    · exact ((nodup_reachableFrom _ _ [] List.nodup_nil).filter _).filter _
    · subst equal
      obtain ⟨declaration, member, rfl⟩ := List.mem_map.mp earlier
      have reached := (List.mem_filter.mp (List.mem_filter.mp later).1).1
      have new := forall_reachableFrom reading.closed _ [slot.target] [] (by simpa using own)
        (by simp) _ reached
      exact absurd (gathered.consistent.names_of_bucket member).held (Nat.not_lt_of_le new.1)
  · have view : (middle.stagedSlot slot).toSite = slot.toSite := by
      unfold stagedSlot
      split
      · split <;> rfl
      · rfl
    rw [DocOnce, view, target_stagedSlot, same]
    exact once
  · rw [target_stagedSlot, same]
    intro named
    unfold stagedSlot
    split
    · rename_i id
      exact ⟨_, if_pos named⟩
    · rename_i bare
      cases slot with
      | bare id => exact absurd rfl (bare id)
      | sited site => exact ⟨site, rfl⟩

/-! ## Entries -/

theorem ends_nextEntry_gathered (grows : feed.Grows) (fills : feed.Fills)
    (gathered : catalog.Gathered) (channel : Channel) (eager : Bool) {lines : List Line}
    (tidy : ∀ line ∈ lines, line.Tidy) :
    Ends (nextEntry feed ⟨some channel, eager⟩ [] lines) catalog
      (fun found after => after.Gathered ∧
        ∀ next ∈ found, next.2 ⊆ lines ∧ ∀ slot ∈ next.1.slot, after.Rooted slot)
      fun _ => True := by
  refine ends_nextEntry_cases tidy (by simp) ⟨gathered, by simp⟩
    (fun doc docTidy => ⟨gathered, by simp⟩) fun line member doc rest _ subset => ?_
  refine ((ends_declaration? grows catalog.underway_size _ line).and
    (ends_declaration?_gains fills _ (tidy line member))).mono
      (fun slot? middle found => ?_) fun _ _ => trivial
  cases slot? with
  | none => exact found.2
  | some slot =>
    obtain ⟨⟨growth, own⟩, gains, once⟩ := found
    refine (ends_stage_gathered gathered growth (own slot rfl) gains once channel).mono
      (fun found after staged => ⟨staged.1, fun next same => ?_⟩) fun _ _ => trivial
    cases same
    exact ⟨subset, by simpa using staged.2⟩

theorem ends_drawEntries_gathered (grows : feed.Grows) (fills : feed.Fills)
    (gathered : catalog.Gathered) (channel : Channel) (eager : Bool) (count : Nat)
    {lines : List Line} (tidy : ∀ line ∈ lines, line.Tidy) :
    Ends (drawEntries feed ⟨some channel, eager⟩ count lines) catalog
      (fun found after => found.2 = none → after.Gathered ∧
        ∀ entry ∈ found.1, ∀ slot ∈ entry.slot, after.Rooted slot)
      fun _ => False := by
  induction count generalizing catalog lines with
  | zero => exact fun _ => ⟨gathered, by simp⟩
  | succ count ih =>
    rw [drawEntries_succ, ends_bind]
    refine (ends_attempt
      (ends_nextEntry_gathered grows fills gathered channel eager tidy)).imp
        fun result middle drawn => ?_
    cases result with
    | error => simp
    | ok found =>
      cases found with
      | none => exact fun _ => ⟨drawn.1, by simp⟩
      | some next =>
        obtain ⟨entry, rest⟩ := next
        obtain ⟨subset, rooted⟩ := drawn.2 _ rfl
        dsimp only
        rw [ends_bind]
        refine ((ends_drawEntries grows middle.underway_size ⟨some channel, eager⟩ count rest).and
          (ih drawn.1 fun line member => tidy line (subset member))).mono
            (fun more after later none => ?_) fun _ ended => ended.1
        obtain ⟨⟨growth, _⟩, later⟩ := later
        obtain ⟨gathered, others⟩ := later none
        exact ⟨gathered, List.forall_mem_cons.mpr
          ⟨fun slot member => (rooted slot member).growth growth, others⟩⟩

theorem ends_joinEntries_gathered (grows : feed.Grows) (fills : feed.Fills)
    (gathered : catalog.Gathered) (channel : Channel) (eager : Bool) (text : String)
    (count : Nat) (docs : List (Option String)) (slot? : Option Slot) {lines : List Line}
    (tidy : ∀ line ∈ lines, line.Tidy) (rooted : ∀ slot ∈ slot?, catalog.Rooted slot) :
    Ends (joinEntries feed ⟨some channel, eager⟩ text count docs slot? lines) catalog
      (fun entry after => after.Gathered ∧ ∀ slot ∈ entry.slot, after.Rooted slot)
      fun _ => True := by
  induction count generalizing catalog docs slot? lines with
  | zero => exact ⟨gathered, rooted⟩
  | succ count ih =>
    rw [joinEntries, ends_bind]
    refine ((ends_nextEntry grows catalog.underway_size ⟨some channel, eager⟩ [] lines).and
      (ends_nextEntry_gathered grows fills gathered channel eager tidy)).mono
        (fun found middle drawn => ?_) fun _ _ => trivial
    obtain ⟨⟨growth, _⟩, further, own⟩ := drawn
    have kept : ∀ slot ∈ slot?, middle.Rooted slot := fun slot member =>
      (rooted slot member).growth growth
    cases found with
    | none => exact ⟨further, kept⟩
    | some next =>
      obtain ⟨entry, rest⟩ := next
      obtain ⟨subset, first⟩ := own _ rfl
      refine ends_ite (fun _ => trivial) fun _ => ?_
      refine ih further _ _ (fun line member => tidy line (subset member)) fun slot member => ?_
      cases same : entry.slot with
      | none => exact kept slot (by simpa [same] using member)
      | some => exact first slot (by simpa [same] using member)

/-! ## Blocks -/

/-- A block that is read to its end, or as far as it is drawn, is gathered. -/
theorem Yields.gathered {operation : Operation} {entries : List Entry}
    (yields : Yields channel operation before entries after)
    (complete : succeeds operation.perform before = true) (gathered : before.Gathered) :
    after.Gathered ∧ ∀ entry ∈ entries, ∀ slot ∈ entry.slot, after.Rooted slot := by
  cases yields with
  | @block eager count text _ _ _ error? done =>
    have whole : error? = none := by
      cases error? with
      | none => rfl
      | some error =>
        simp only [succeeds, Operation.perform, bind, EStateM.bind, done] at complete
        exact absurd complete Bool.false_ne_true
    exact (ends_drawEntries_gathered (grows_feedWithin _) (fills_feedWithin _) gathered channel _
      _ (Outline.tidy_of_mem_ofText _)).of_ok done whole
  | @entries eager text _ _ _ done =>
    suffices ends : Ends (parseEntries ⟨some channel, eager⟩ text) before
        (fun found after => after.Gathered ∧
          ∀ entry ∈ found, ∀ slot ∈ entry.slot, after.Rooted slot) fun _ => True from ends.of_ok done
    rw [parseEntries, allEntries, ends_bind]
    refine (ends_drawEntries_gathered (grows_feedWithin _) (fills_feedWithin _) gathered channel
      eager _ (Outline.tidy_of_mem_ofText _)).mono (fun found _ drawn => ?_)
        fun _ ended => ended.elim
    obtain ⟨entries, error?⟩ := found
    cases error? with
    | none => exact drawn rfl
    | some => trivial
  | single done =>
    rw [List.forall_mem_singleton]
    exact (ends_joinEntries_gathered (grows_feedWithin _) (fills_feedWithin _) gathered channel
      _ _ _ _ _ (Outline.tidy_of_mem_ofText _) (by simp)).of_ok done

/-- Channels read blocks one after the other, each of them successfully; `slots` are the
declarations that they have given. -/
inductive Blocks (start : Catalog) : List Slot → Catalog → Prop
  | none : Blocks start [] start
  | block {slots : List Slot} {channel : Channel} {operation : Operation} {middle after : Catalog}
      {entries : List Entry}
      (blocks : Blocks start slots middle)
      (yields : Yields channel operation middle entries after)
      (complete : succeeds operation.perform middle = true) :
      Blocks start (slots ++ entries.filterMap Entry.slot) after

/-- A configuration only sets spellings and settings. -/
theorem respell_of_ofConfig {config : Config} {start : Catalog}
    (made : ofConfig config = .ok start) : ∃ aliases, start = (fresh config).respell aliases := by
  have step (entry : String × String) (state : Catalog)
      (spelled : ∃ aliases, state = (fresh config).respell aliases) :
      Ends (addAlias entry.1 entry.2) state
        (fun _ after => ∃ aliases, after = (fresh config).respell aliases) fun _ => True := by
    obtain ⟨aliases, rfl⟩ := spelled
    simp only [addAlias, ends_bind, ends_get]
    refine ends_ite (fun _ => trivial) fun _ => ?_
    split
    · exact ⟨_, rfl⟩
    · trivial
  have fill (entries : List (String × String)) :=
    ends_forM _ _ _ entries (fun entry _ => step entry) (fresh config)
      ⟨(fresh config).aliases, rfl⟩
  unfold ofConfig at made
  dsimp only at made
  split at made
  · rename_i filled
    cases made
    exact (fill _).of_ok filled
  · cases made

theorem gathered_of_ofConfig {config : Config} {start : Catalog}
    (made : ofConfig config = .ok start) : start.Gathered := by
  have consistent := (naming_ofConfig made).consistent (consistent_fresh config)
  obtain ⟨aliases, rfl⟩ := respell_of_ofConfig made
  have none (id : TypeId) : ¬((fresh config).respell aliases).Holds id := Nat.not_lt_zero _
  refine ⟨consistent, fun id => ?_, fun id held => absurd held (none id), fun name => ?_, rfl, rfl⟩
  · rw [definition_of_not_holds (none id)]
    simp [Definition.ofShape]
  · exact List.nodup_nil

theorem Yields.growth {operation : Operation} {entries : List Entry}
    (yields : Yields channel operation before entries after) :
    Growth before.arena.size before after := by
  cases yields with
  | block done => exact ((ends_parseBlock before.underway_size _ _ _).of_ok done).1
  | entries done => exact ((ends_parseEntries before.underway_size _ _).of_ok done).1
  | single done => exact ((ends_parseSingle before.underway_size _ _).of_ok done).1

/-- What the slots of the blocks have in common. -/
structure Declared (catalog : Catalog) (slot : Slot) : Prop where
  rooted : catalog.Rooted slot
  staged : ∃ channel, catalog.StagedWhole channel slot

theorem Blocks.gathered {start : Catalog} {slots : List Slot}
    (blocks : Blocks start slots catalog) (gathered : start.Gathered) :
    catalog.Gathered ∧ ∀ slot ∈ slots, catalog.Declared slot := by
  induction blocks with
  | none => exact ⟨gathered, by simp⟩
  | @block slots channel operation middle after entries _ yields complete ih =>
    obtain ⟨earlier, declared⟩ := ih
    obtain ⟨further, rooted⟩ := yields.gathered complete earlier
    have staged := yields.staged earlier.consistent
    refine ⟨further, List.forall_mem_append.mpr ⟨fun slot member => ?_, fun slot member => ?_⟩⟩
    · obtain ⟨own, channel, whole⟩ := declared slot member
      exact ⟨own.growth yields.growth,
        channel, whole.growth earlier.consistent own.held yields.growth⟩
    · obtain ⟨entry, inside, found⟩ := List.mem_filterMap.mp member
      exact ⟨rooted entry inside slot found, channel, staged entry inside slot found⟩

end DocShapes.Catalog
