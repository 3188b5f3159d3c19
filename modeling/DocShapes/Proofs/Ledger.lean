import DocShapes.Proofs.Enlisting

/-! # The ledger of a run

Whatever the operations of a run put into the buckets is entered into a ledger, operation by
operation. No definition is entered twice, each stands under its own name and with the channel of
the block that has declared it, and the entries of a block account for what the block puts there
(`staging_exact`).
-/

namespace DocShapes

/-- A declaration that an operation has put into the bucket of a name. -/
structure Posting where
  operation : Operation
  name : String
  declaration : Declaration

namespace Catalog

variable {catalog before after : Catalog} {channel : Channel} {ids : List TypeId}
  {name : String}

/-! ## Ledgers -/

/-- The declarations that stand behind the earlier ones of their buckets, with the names of the
buckets. -/
def appended (before after : Catalog) : List (String × Declaration) :=
  after.pending.keys.flatMap fun name =>
    ((after.bucket name).drop (before.bucket name).length).map fun declaration =>
      (name, declaration)

/-- What the operations of a run put into the buckets, whether they succeed or fail. -/
def ledger : Catalog → List Operation → List Posting
  | _, [] => []
  | catalog, operation :: rest =>
      (appended catalog (leaves operation.perform catalog)).map
          (fun (name, declaration) => ⟨operation, name, declaration⟩) ++
        ledger (leaves operation.perform catalog) rest

/-! ## One operation -/

theorem appended_eq_nil
    (shorter : ∀ name, (after.bucket name).length ≤ (before.bucket name).length) :
    appended before after = [] := by
  rw [appended, List.flatMap_eq_nil_iff]
  intro name _
  rw [List.drop_of_length_le (shorter name), List.map_nil]

theorem Appends.drop_bucket (appends : Appends channel before after ids) (name : String) :
    (after.bucket name).drop (before.bucket name).length =
      (ids.filter fun id => (after.definition id).name = name).map fun id => ⟨id, channel⟩ := by
  have bucket : after.bucket name = before.bucket name ++
      (ids.filter fun id => (after.definition id).name = name).map fun id => ⟨id, channel⟩ := by
    rw [Catalog.bucket, appends.pending, getD_enlisted]
    rfl
  rw [bucket, List.drop_left]

theorem Appends.mem_appended (appends : Appends channel before after ids)
    {declaration : Declaration} (member : (name, declaration) ∈ appended before after) :
    declaration.id ∈ ids ∧ (after.definition declaration.id).name = name ∧
      declaration.channel = channel := by
  obtain ⟨other, _, within⟩ := List.mem_flatMap.mp member
  rw [appends.drop_bucket other, List.map_map] at within
  obtain ⟨id, listed, same⟩ := List.mem_map.mp within
  cases same
  obtain ⟨inside, own⟩ := List.mem_filter.mp listed
  exact ⟨inside, of_decide_eq_true own, rfl⟩

/-- No id is appended twice: it goes to the bucket of its own name alone, and there once. -/
theorem Appends.nodup_appended (appends : Appends channel before after ids)
    (distinct : after.pending.keys.Nodup) :
    ((appended before after).map fun entry => entry.2.id).Nodup := by
  have split : ((appended before after).map fun entry => entry.2.id) =
      after.pending.keys.flatMap fun name =>
        ids.filter fun id => (after.definition id).name = name := by
    rw [appended, List.map_flatMap]
    congr 1
    funext name
    rw [appends.drop_bucket name]
    simp [Function.comp_def]
  rw [split, List.nodup_flatMap]
  refine ⟨fun name _ => appends.once.filter _, distinct.imp fun {left right} different => ?_⟩
  intro id inLeft inRight
  have nameLeft := of_decide_eq_true (List.mem_filter.mp inLeft).2
  have nameRight := of_decide_eq_true (List.mem_filter.mp inRight).2
  exact different (nameLeft.symm.trans nameRight)

theorem leaves_map {α β : Type} (view : α → β) (step : CatalogM α) :
    leaves (view <$> step) catalog = leaves step catalog := by
  simp only [leaves, Functor.map, EStateM.map]
  cases step catalog <;> rfl

/-- What an operation of a channel leaves is what drawing some entries of a block leaves. -/
theorem exists_parseBlock_of_channel? {operation : Operation}
    (declares : Operation.channel? operation = some channel) :
    ∃ eager count text, leaves operation.perform catalog =
      leaves (parseBlock ⟨some channel, eager⟩ count text) catalog := by
  cases operation with
  | parseBlock mode count text =>
    obtain ⟨_, eager⟩ := mode
    obtain rfl := declares
    refine ⟨eager, count, text, ?_⟩
    simp only [leaves, Operation.perform, bind, EStateM.bind]
    cases parseBlock ⟨some channel, eager⟩ count text catalog with
    | error => rfl
    | ok found =>
      obtain ⟨_, error?⟩ := found
      cases error? <;> rfl
  | parseEntries mode text =>
    obtain ⟨_, eager⟩ := mode
    obtain rfl := declares
    exact ⟨eager, _, text, (leaves_map _ _).trans (leaves_allEntries _ _)⟩
  | parseSingle mode text =>
    obtain ⟨_, eager⟩ := mode
    obtain rfl := declares
    obtain ⟨count, same⟩ := leaves_joinEntries (grows_feedWithin _) ⟨some channel, eager⟩ text _ []
      none (Outline.ofText text)
    exact ⟨eager, count, text, (leaves_map _ _).trans same⟩
  | _ => cases declares

theorem appends_perform {operation : Operation} (consistent : catalog.Consistent)
    (declares : Operation.channel? operation = some channel) :
    ∃ ids, Appends channel catalog (leaves operation.perform catalog) ids := by
  obtain ⟨eager, count, text, same⟩ := @exists_parseBlock_of_channel? catalog _ _ declares
  rw [same]
  have drawn := ends_drawEntries_appends (grows_feedWithin (Text.linesOf text).length)
    (quiet_feedWithin _) channel eager count (Outline.ofText text) consistent
  exact ends_leaves_iff.mp (drawn.mono (fun _ _ appends => appends) fun _ ended => ended.elim)

theorem pending_mergePending (consistent : catalog.Consistent) :
    (leaves mergePending catalog).pending = .empty := by
  suffices ends : Ends mergePending catalog (fun _ after => after.pending = .empty)
      fun after => after.pending = .empty from ends_leaves_iff.mp ends
  simp only [mergePending, ends_bind, ends_get, ends_modify]
  refine (ends_mergeNames catalog.pending.entries consistent.discharge
    consistent.mergeable_discharge consistent.distinctStaged).mono (fun _ middle merged => ?_)
      fun _ merging => merging.pending rfl
  have empty := merged.merging.pending rfl
  refine (ends_settleCanonical (merged.merging.consistent consistent.discharge)).mono
    (fun _ after settled => ?_) fun _ settling => settling.pending.trans empty
  obtain ⟨_, walked, _⟩ := settled
  exact walked.settling.pending.trans empty

/-- Without a channel an operation leaves the buckets as they are, or it is a merge. -/
theorem pending_detached {operation : Operation} (consistent : catalog.Consistent)
    (allowed : operation.Allowed catalog) (detached : Operation.channel? operation = none) :
    (operation = .mergePending ∧ (leaves operation.perform catalog).pending = .empty) ∨
      (leaves operation.perform catalog).pending = catalog.pending := by
  by_cases merges : operation = .mergePending
  · subst merges
    exact .inl ⟨rfl, pending_mergePending consistent⟩
  · exact .inr (pending_perform consistent allowed detached merges)

/-- An operation puts its declarations behind the others, or it is a merge and empties the
buckets. -/
theorem bucket_perform {operation : Operation} (consistent : catalog.Consistent)
    (allowed : operation.Allowed catalog) (name : String) :
    (operation = .mergePending ∧ (leaves operation.perform catalog).bucket name = []) ∨
      catalog.bucket name <+: (leaves operation.perform catalog).bucket name := by
  cases declares : Operation.channel? operation with
  | none =>
    rcases pending_detached consistent allowed declares with ⟨merges, empty⟩ | same
    · refine .inl ⟨merges, ?_⟩
      rw [Catalog.bucket, empty]
      rfl
    · right
      rw [Catalog.bucket, Catalog.bucket, same]
  | some channel =>
    right
    obtain ⟨ids, appends⟩ := appends_perform consistent declares
    rw [Catalog.bucket, Catalog.bucket, appends.pending, getD_enlisted]
    exact List.prefix_append _ _

/-- What an operation enters into the ledger: new definitions, each once, under their own names and
with the channel of the operation. -/
theorem appended_perform {operation : Operation} (consistent : catalog.Consistent)
    (allowed : operation.Allowed catalog)
    (further : (leaves operation.perform catalog).Consistent) :
    ((appended catalog (leaves operation.perform catalog)).map fun entry => entry.2.id).Nodup ∧
      ∀ entry ∈ appended catalog (leaves operation.perform catalog),
        ¬catalog.Holds entry.2.id ∧ Operation.channel? operation = some entry.2.channel ∧
          (leaves operation.perform catalog).Names entry.2.id entry.1 := by
  cases declares : Operation.channel? operation with
  | none =>
    have nothing : appended catalog (leaves operation.perform catalog) = [] := by
      apply appended_eq_nil
      intro name
      rcases pending_detached consistent allowed declares with ⟨_, empty⟩ | same
      · rw [Catalog.bucket, empty]
        exact Nat.zero_le _
      · rw [Catalog.bucket, same]
        exact Nat.le_refl _
    simp [nothing]
  | some channel =>
    obtain ⟨ids, appends⟩ := appends_perform consistent declares
    refine ⟨appends.nodup_appended further.distinctStaged, fun entry member => ?_⟩
    obtain ⟨name, declaration⟩ := entry
    obtain ⟨listed, own, rfl⟩ := appends.mem_appended member
    have fresh := appends.fresh _ listed
    exact ⟨Nat.not_lt_of_le fresh.1, rfl, fresh.2, appends.named _ listed, own⟩

/-! ## Runs -/

theorem Change.names {id : TypeId} (change : Change before after) (consistent : before.Consistent)
    (names : before.Names id name) : after.Names id name := by
  cases change with
  | growth step => exact step.names names
  | naming step => exact step.names consistent names
  | replacing step => exact step.names consistent names
  | settling step => exact step.names names
  | merging step => exact step.names consistent names

theorem Change.holds {id : TypeId} (change : Change before after) (held : before.Holds id) :
    after.Holds id := by
  cases change with
  | growth step => exact Nat.lt_of_lt_of_le held step.size_le
  | naming step => exact step.holds held
  | replacing step =>
    rw [step.change]
    simpa using held
  | settling step => exact (step.holds_iff id).mpr held
  | merging step =>
    cases step with
    | introduce => simpa using! Or.inl held
    | fill => simpa using held
    | _ => exact held

theorem names_run {operations : List Operation} {id : TypeId}
    (permits : catalog.Permits operations) (consistent : catalog.Consistent)
    (names : catalog.Names id name) : (catalog.run operations).Names id name :=
  run_changes permits (fun _ _ consistent names change => change.names consistent names) consistent
    names

/-- The ledger of a run has new definitions only, each once, and each keeps the name that it is
entered under. -/
theorem ledger_spec {operations : List Operation} (reachable : catalog.Reachable)
    (permits : catalog.Permits operations) :
    ((catalog.ledger operations).map fun posting => posting.declaration.id).Nodup ∧
      ∀ posting ∈ catalog.ledger operations, ¬catalog.Holds posting.declaration.id ∧
        Operation.channel? posting.operation = some posting.declaration.channel ∧
        (catalog.run operations).Names posting.declaration.id posting.name := by
  induction operations generalizing catalog with
  | nil => exact ⟨List.nodup_nil, by simp [ledger]⟩
  | cons operation rest ih =>
    have move : Move catalog (leaves operation.perform catalog) := ⟨operation, permits.1, rfl⟩
    have further := reachable.move move
    obtain ⟨once, posts⟩ := appended_perform reachable.consistent permits.1 further.consistent
    obtain ⟨onceLater, later⟩ := ih further permits.2
    rw [ledger]
    constructor
    · rw [List.map_append, List.map_map, List.nodup_append]
      refine ⟨once, onceLater, fun id early other late same => ?_⟩
      obtain ⟨entry, first, rfl⟩ := List.mem_map.mp early
      obtain ⟨posting, second, rfl⟩ := List.mem_map.mp late
      apply (later posting second).1
      rw [← same]
      exact (posts entry first).2.2.held
    · intro posting member
      rcases List.mem_append.mp member with first | second
      · obtain ⟨entry, listed, rfl⟩ := List.mem_map.mp first
        obtain ⟨new, declares, names⟩ := posts entry listed
        have kept := names_run permits.2 further.consistent names
        exact ⟨new, declares, kept⟩
      · obtain ⟨new, declares, names⟩ := later posting second
        have single : catalog.Permits [operation] := ⟨permits.1, trivial⟩
        refine ⟨fun held => new ?_, declares, names⟩
        exact run_changes single (fun _ _ _ held change => change.holds held) reachable.consistent
          held

/-! ## Exactness -/

/-- How a block of a channel is staged: entry by entry, as the entries are drawn. An entry that
fails ends the block and is not staged. However a block is read, it leaves what drawing some of its
entries leaves. -/
structure StagedByEntry (catalog : Catalog) (channel : Channel) (eager : Bool) (text : String) :
    Prop where
  start : parseBlock ⟨some channel, eager⟩ 0 text catalog = .ok ([], none) catalog
  next : ∀ count, ∃ entries error? middle further failure? after,
    parseBlock ⟨some channel, eager⟩ count text catalog = .ok (entries, error?) middle ∧
      parseBlock ⟨some channel, eager⟩ (count + 1) text catalog = .ok (further, failure?) after ∧
      ((∃ entry ids, further = entries ++ [entry] ∧ failure? = none ∧
          EntryStaged channel entry middle after ids) ∨
        (further = entries ∧ after.pending = middle.pending))
  entries : ∃ count, leaves (parseEntries ⟨some channel, eager⟩ text) catalog =
    leaves (parseBlock ⟨some channel, eager⟩ count text) catalog
  single : ∃ count, leaves (parseSingle ⟨some channel, eager⟩ text) catalog =
    leaves (parseBlock ⟨some channel, eager⟩ count text) catalog

theorem Consistent.stagedByEntry (consistent : catalog.Consistent) (channel : Channel)
    (eager : Bool) (text : String) : catalog.StagedByEntry channel eager text where
  start := rfl
  next count := by
    have grows := grows_feedWithin (Text.linesOf text).length
    obtain ⟨entries, error?, middle, drawn⟩ := exists_drawEntries_eq_ok grows catalog
      ⟨some channel, eager⟩ count (Outline.ofText text)
    obtain ⟨further, failure?, after, redrawn⟩ := exists_drawEntries_eq_ok grows catalog
      ⟨some channel, eager⟩ (count + 1) (Outline.ofText text)
    exact ⟨entries, error?, middle, further, failure?, after, drawn, redrawn,
      drawEntries_further grows (quiet_feedWithin _) channel eager consistent drawn redrawn⟩
  entries := ⟨_, leaves_allEntries _ _⟩
  single := leaves_joinEntries (grows_feedWithin _) _ text _ [] none _

/-- In a run from the catalog of a configuration each definition is put into a bucket at most once:
into the bucket of its own name, behind all others, and with the channel of the block that has
declared it. At any moment, what a block puts there is what its entries put there, and an entry
puts there the named parts of the type that it declares, in pre-order. -/
theorem staging_exact {config : Config} {start : Catalog} {operations : List Operation}
    (made : ofConfig config = .ok start) (permits : start.Permits operations) :
    ((start.ledger operations).map fun posting => posting.declaration.id).Nodup ∧
      (∀ posting ∈ start.ledger operations,
        Operation.channel? posting.operation = some posting.declaration.channel ∧
          (start.run operations).Names posting.declaration.id posting.name) ∧
      (∀ operation : Operation, operation.Allowed (start.run operations) → ∀ name,
        (operation = .mergePending ∧
            (leaves operation.perform (start.run operations)).bucket name = []) ∨
          (start.run operations).bucket name <+:
            (leaves operation.perform (start.run operations)).bucket name) ∧
      ∀ channel eager text, (start.run operations).StagedByEntry channel eager text := by
  have initial : start.Reachable := ⟨config, start, made, .refl⟩
  have consistent := (reachable_run made permits).consistent
  obtain ⟨once, posts⟩ := ledger_spec initial permits
  exact ⟨once, fun posting member => (posts posting member).2,
    fun _ allowed name => bucket_perform consistent allowed name,
    fun channel eager text => consistent.stagedByEntry channel eager text⟩

/-- A block whose last entry fails, a text without a channel, a merge, and another channel. -/
def fooRun : List Operation :=
  [.parseEntries ⟨some .read, false⟩
      "x : list(Foo)\ny : Foo\n    a : Bar | list(Foo)\nz : list(",
    .loadExtension "Bar : record\n    b : int" none,
    .mergePending,
    .parseSingle ⟨some .write, false⟩ "y : Bar\n    c : Foo"]

theorem staging_exact_fooRun :
    (empty.ledger fooRun).map (fun posting => (posting.name, posting.declaration)) =
        [("Foo", ⟨⟨0⟩, .read⟩), ("Foo", ⟨⟨2⟩, .read⟩), ("Foo", ⟨⟨4⟩, .read⟩),
          ("Bar", ⟨⟨3⟩, .read⟩), ("Bar", ⟨⟨11⟩, .write⟩), ("Foo", ⟨⟨12⟩, .write⟩)] ∧
      ((empty.ledger fooRun).map fun posting => posting.declaration.id).Nodup ∧
      (∀ posting ∈ empty.ledger fooRun,
        Operation.channel? posting.operation = some posting.declaration.channel ∧
          (empty.run fooRun).Names posting.declaration.id posting.name) ∧
      (empty.run fooRun).StagedByEntry .create true "z : Bar\n    d : list(Foo)" := by
  have permits : empty.Permits fooRun := ⟨trivial, trivial, trivial, trivial, trivial⟩
  have staged := @staging_exact .standard empty fooRun rfl permits
  exact ⟨by decide +kernel, staged.1, staged.2.1, staged.2.2.2 .create true _⟩

end Catalog

end DocShapes
