import DocShapes.Proofs.Uniting

/-! # Access flags

A field that only some channels of a record declare is flagged with the channels that see it. The
flags depend on the channels that declare content, on those that declare the field, and on the flags
that any field of the record carries by hand; they are read off the declarations here, without the
sets that a merge keeps of them.
-/

namespace DocShapes.Catalog

variable {catalog : Catalog} {name field : String} {full : List Declaration} {channel : Channel}

/-! ## Channels of declarations -/

/-- The channel declares content. -/
def Speaks (catalog : Catalog) (full : List Declaration) (channel : Channel) : Prop :=
  ∃ declaration ∈ catalog.withContent full, declaration.channel = channel

/-- The channel declares the field. -/
def ShowsIn (catalog : Catalog) (full : List Declaration) (field : String) (channel : Channel) :
    Prop :=
  ∃ declaration ∈ catalog.withContent full, declaration.channel = channel ∧
    (catalog.shape declaration.id).HasField field

/-- Some field of the record is flagged for the channel by hand. -/
def FlaggedAnywhere (catalog : Catalog) (full : List Declaration) (channel : Channel) : Prop :=
  ∃ declaration ∈ catalog.withContent full, ∃ site ∈ (catalog.shape declaration.id).sites,
    site.qualifiers.contains channel.word = true

/-- A declaration of the field carries an access flag. -/
def FlaggedByHand (catalog : Catalog) (full : List Declaration) (field : String) : Prop :=
  ∃ declaration ∈ catalog.withContent full, ∃ site ∈ (catalog.shape declaration.id).sites,
    site.name.getD "" = field ∧
      ∃ channel ∈ Channel.access, site.qualifiers.contains channel.word = true

/-- The channel sees the field. What is created can be written and the other way round, unless some
field says by hand who creates, or who writes. -/
def Sees (catalog : Catalog) (full : List Declaration) (field : String) : Channel → Prop
  | .create => catalog.ShowsIn full field .create ∨
      catalog.ShowsIn full field .write ∧ ¬catalog.FlaggedAnywhere full .create
  | .write => catalog.ShowsIn full field .write ∨
      catalog.ShowsIn full field .create ∧ ¬catalog.FlaggedAnywhere full .write
  | channel => catalog.ShowsIn full field channel

/-- The field needs no flags: one channel declares the record, the field is flagged by hand or
unscoped, or all channels have it. -/
def Open (catalog : Catalog) (full : List Declaration) (field : String) : Prop :=
  (∃ only, ∀ channel, catalog.Speaks full channel ↔ channel = only) ∨
    catalog.FlaggedByHand full field ∨ catalog.ShowsIn full field .unscoped ∨
      ∀ channel, catalog.ShowsIn full field channel ↔ catalog.Speaks full channel

theorem showsIn_iff :
    catalog.ShowsIn full field channel ↔
      channel ∈ (catalog.usesOf full field).map Candidate.channel := by
  rw [List.mem_map]
  constructor
  · rintro ⟨declaration, declares, same, site, inside, label⟩
    exact ⟨⟨channel, site⟩,
      mem_usesOf.mpr ⟨mem_declared.mpr ⟨declaration, declares, same, inside⟩, label⟩, rfl⟩
  · rintro ⟨use, member, rfl⟩
    obtain ⟨listed, label⟩ := mem_usesOf.mp member
    obtain ⟨declaration, declares, same, inside⟩ := mem_declared.mp listed
    exact ⟨declaration, declares, same, use.site, inside, label⟩

theorem flaggedByHand_iff :
    catalog.FlaggedByHand full field ↔ ((catalog.usesOf full field).any fun candidate =>
      Channel.access.any fun key => flaggedBy key candidate) = true := by
  simp only [List.any_eq_true]
  constructor
  · rintro ⟨declaration, declares, site, inside, label, marked⟩
    exact ⟨⟨declaration.channel, site⟩,
      mem_usesOf.mpr ⟨mem_declared.mpr ⟨declaration, declares, rfl, inside⟩, label⟩, marked⟩
  · rintro ⟨use, member, marked⟩
    obtain ⟨listed, label⟩ := mem_usesOf.mp member
    obtain ⟨declaration, declares, _, inside⟩ := mem_declared.mp listed
    exact ⟨declaration, declares, use.site, inside, label, marked⟩

theorem flaggedAnywhere_iff :
    catalog.FlaggedAnywhere full channel ↔
      ((catalog.candidates (catalog.withContent full)).values.any fun all =>
        all.any (flaggedBy channel)) = true := by
  have grouped := grouped_candidates catalog (catalog.withContent full)
  simp only [List.any_eq_true, OrderedMap.values, List.mem_map]
  constructor
  · rintro ⟨declaration, declares, site, inside, marked⟩
    obtain ⟨group, found, member⟩ := grouped.complete ⟨declaration.channel, site⟩
      (mem_declared.mpr ⟨declaration, declares, rfl, inside⟩)
    exact ⟨group, ⟨_, OrderedMap.mem_entries_of_get? found, rfl⟩, _, member, marked⟩
  · rintro ⟨_, ⟨⟨label, group⟩, entry, rfl⟩, use, member, marked⟩
    obtain ⟨listed, _⟩ := grouped.sound label group entry use member
    obtain ⟨declaration, declares, _, inside⟩ := mem_declared.mp listed
    exact ⟨declaration, declares, use.site, inside, marked⟩

/-! ## Sets of channels -/

@[simp] theorem mem_channelSet {channels : List Channel} :
    channel ∈ channelSet channels ↔ channel ∈ channels := by
  simp only [channelSet, List.mem_filter, decide_eq_true_iff, and_iff_right_iff_imp]
  intro _
  cases channel <;> decide

theorem channelSet_eq_iff {channels others : List Channel} :
    channelSet channels = channelSet others ↔ ∀ channel, channel ∈ channels ↔ channel ∈ others := by
  constructor
  · intro same channel
    rw [← mem_channelSet, same, mem_channelSet]
  · intro alike
    simp only [channelSet, alike]

theorem length_channelSet_le_one_iff {channels : List Channel} (nonempty : channels ≠ []) :
    ¬(channelSet channels).length > 1 ↔ ∃ only, ∀ channel, channel ∈ channels ↔ channel = only := by
  have distinct : (channelSet channels).Nodup := List.Nodup.filter _ (by decide)
  constructor
  · intro few
    obtain ⟨only, member⟩ := List.exists_mem_of_ne_nil channels nonempty
    have inside := mem_channelSet.mpr member
    cases set : channelSet channels with
    | nil => simp [set] at inside
    | cons first rest =>
      have last : rest = [] := by
        apply List.eq_nil_of_length_eq_zero
        rw [set, List.length_cons] at few
        omega
      refine ⟨first, fun channel => ?_⟩
      rw [← mem_channelSet, set, last, List.mem_singleton]
  · rintro ⟨only, alone⟩
    have within : channelSet channels ⊆ [only] := fun channel member =>
      List.mem_singleton.mpr ((alone channel).mp (mem_channelSet.mp member))
    have few := (List.subperm_of_subset distinct within).length_le
    simpa using few

/-! ## Flags of a field -/

theorem allows_iff :
    (catalog.accessOf (catalog.withContent full)).allows
      (channelSet ((catalog.usesOf full field).map Candidate.channel)) channel = true ↔
        catalog.Sees full field channel := by
  have marked (channel : Channel) := not_congr (@flaggedAnywhere_iff catalog full channel)
  simp only [Bool.not_eq_true] at marked
  cases channel <;>
    simp [Access.allows, accessOf, Sees, showsIn_iff, marked, -List.mem_map]

theorem mem_channels_accessOf :
    channel ∈ (catalog.accessOf (catalog.withContent full)).channels ↔
      catalog.Speaks full channel := by
  simp [accessOf, Speaks]

theorem speaks_iff :
    catalog.Speaks full channel ↔
      channel ∈ (catalog.withContent full).map Declaration.channel := by
  simp [Speaks]

theorem open_iff (declared : catalog.usesOf full field ≠ []) :
    catalog.Open full field ↔
      ¬(catalog.accessOf (catalog.withContent full)).channels.length > 1 ∨
        ((catalog.usesOf full field).any fun candidate =>
          Channel.access.any fun key => flaggedBy key candidate) = true ∨
        .unscoped ∈ channelSet ((catalog.usesOf full field).map Candidate.channel) ∨
        channelSet ((catalog.usesOf full field).map Candidate.channel) =
          (catalog.accessOf (catalog.withContent full)).channels := by
  obtain ⟨declaration, declares, _⟩ := usesOf_ne_nil_iff.mp declared
  have nonempty : (catalog.withContent full).map Declaration.channel ≠ [] :=
    List.ne_nil_of_mem (List.mem_map_of_mem declares)
  rw [accessOf, length_channelSet_le_one_iff nonempty, channelSet_eq_iff, mem_channelSet,
    ← flaggedByHand_iff]
  simp only [Open, speaks_iff, showsIn_iff]

/-- A field that needs flags is given those of the scoped channels that see it or that declare the
record, each with the word whether the channel sees the field. -/
theorem mem_given_iff (declared : catalog.usesOf full field ≠ []) {on : Bool} :
    (channel, on) ∈
        (catalog.accessOf (catalog.withContent full)).given (catalog.usesOf full field) ↔
      ¬catalog.Open full field ∧ channel ∈ Channel.access ∧
        (catalog.Sees full field channel ∨ catalog.Speaks full channel) ∧
          (on = true ↔ catalog.Sees full field channel) := by
  rw [open_iff declared, ← allows_iff, ← mem_channels_accessOf]
  unfold Access.given Access.flags
  dsimp only
  by_cases several : (catalog.accessOf (catalog.withContent full)).channels.length > 1
  · rw [if_pos several]
    split
    · rename_i unmarked
      rw [Bool.or_eq_true, Bool.or_eq_true, decide_eq_true_iff, decide_eq_true_iff, or_assoc]
        at unmarked
      exact iff_of_false List.not_mem_nil fun closed => closed.1 (.inr unmarked)
    · rename_i marked
      rw [Bool.or_eq_true, Bool.or_eq_true, decide_eq_true_iff, decide_eq_true_iff, or_assoc]
        at marked
      simp only [List.mem_filterMap, several, not_true, false_or, marked, not_false_iff, true_and]
      constructor
      · rintro ⟨other, access, found⟩
        split at found
        · rename_i seen
          cases found
          exact ⟨access, by simpa using seen, Iff.rfl⟩
        · cases found
      · rintro ⟨access, seen, same⟩
        refine ⟨channel, access, ?_⟩
        rw [if_pos (by simpa using seen), Bool.eq_iff_iff.mpr same]
  · rw [if_neg several]
    simp [several]

theorem ShowsIn.sees (shown : catalog.ShowsIn full field channel) :
    catalog.Sees full field channel := by
  cases channel with
  | create | write => exact .inl shown
  | read | unscoped => exact shown

/-- A merged field says what its declarations come to, and carries flags only if it needs them:
exactly those of the scoped channels that see it or that declare the record. So no flag denies the
field to a channel that declares it, and whoever is denied it has declared the record without it. -/
theorem access_flags {merged : Merged} (made : catalog.mergeRecord name full = .ok merged) :
    ∀ site ∈ merged.definition.shape.sites,
      let field := site.name.getD ""
      ∃ own ∈ (catalog.usesOf full field).map fun use => use.site.qualifiers,
        (∀ use ∈ catalog.usesOf full field, use.site.qualifiers.isEmpty = false →
          own.same use.site.qualifiers = true) ∧
        ∃ flags : List (Channel × Bool),
          site.qualifiers.values.entries = own.values.entries ++ flags.map entryOf ∧
          (flags.map Prod.fst).Sublist Channel.access ∧
          (catalog.Open full field → flags = []) ∧
          (¬catalog.Open full field → ∀ channel on, (channel, on) ∈ flags ↔
            channel ∈ Channel.access ∧
              (catalog.Sees full field channel ∨ catalog.Speaks full channel) ∧
              (on = true ↔ catalog.Sees full field channel)) ∧
          ∀ channel, (channel, false) ∈ flags →
            catalog.Speaks full channel ∧ ¬catalog.ShowsIn full field channel := by
  obtain ⟨sites, shape, _, fields, _⟩ := fields_of_mergeRecord made
  rw [shape]
  intro site member field
  obtain ⟨first, others, merged⟩ := fields site member
  have declared : catalog.usesOf full field ≠ [] := by simp [field, merged.uses]
  have given (channel : Channel) (on : Bool) :=
    @mem_given_iff catalog field full channel declared on
  rw [show catalog.usesOf full field = first :: others from merged.uses] at given ⊢
  obtain ⟨own, listed, entries, same⟩ := merged.qualifiers
  refine ⟨own, listed, same, _, entries, Access.given_sublist _ _, ?_, ?_, ?_⟩
  · intro free
    apply List.eq_nil_iff_forall_not_mem.mpr
    intro flag member
    exact ((given flag.1 flag.2).mp member).1 free
  · intro closed channel on
    rw [given]
    exact and_iff_right closed
  · intro channel member
    obtain ⟨_, _, seen, off⟩ := (given channel false).mp member
    have unseen : ¬catalog.Sees full field channel := fun sees => absurd (off.mpr sees) (by simp)
    exact ⟨seen.resolve_left unseen, fun shown => unseen shown.sees⟩

theorem access_flags_twoForms :
    let catalog := empty.run twoForms
    let full := (catalog.pending.get? "Foo").getD []
    ∃ merged, catalog.mergeRecord "Foo" full = .ok merged ∧
      (merged.definition.shape.sites.map fun site => site.qualifiers.text) =
        [", min: 1", ", read, write: false"] ∧
      ∀ site ∈ merged.definition.shape.sites, ∃ own : Qualifiers, ∃ flags : List (Channel × Bool),
        site.qualifiers.values.entries = own.values.entries ++ flags.map entryOf ∧
        ∀ channel, (channel, false) ∈ flags →
          catalog.Speaks full channel ∧ ¬catalog.ShowsIn full (site.name.getD "") channel := by
  intro catalog full
  have texts : ((catalog.mergeRecord "Foo" full).toOption.map fun merged =>
      merged.definition.shape.sites.map fun site => site.qualifiers.text) =
        some [", min: 1", ", read, write: false"] := by decide +kernel
  cases made : catalog.mergeRecord "Foo" full with
  | error =>
    rw [made] at texts
    cases texts
  | ok merged =>
    rw [made] at texts
    refine ⟨merged, rfl, Option.some.inj texts, fun site member => ?_⟩
    obtain ⟨own, _, _, flags, entries, _, _, _, denied⟩ := access_flags made site member
    exact ⟨own, flags, entries, denied⟩

end DocShapes.Catalog
