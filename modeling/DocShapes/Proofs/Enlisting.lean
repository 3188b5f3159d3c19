import DocShapes.Proofs.Gathering
import DocShapes.Proofs.Preorder
import DocShapes.Proofs.Unstaged

/-! # What an entry of a block puts into the buckets

A declaration is staged when it has been read as a whole: its named parts go behind the other
declarations of their names, in the order of a walk over the declared type. All of them are
definitions that the entry itself has made. An entry that fails, and one that is only prose, leaves
the buckets alone, so that the entries of a block account for all that it puts there.
-/

namespace DocShapes.Catalog

open Outline (Line)

variable {catalog before middle after : Catalog} {channel : Channel} {feed : Feed}
  {ids more : List TypeId}

/-! ## Buckets -/

/-- Buckets with a declaration of each id behind the others of its name, one id after the other. -/
def enlisted (catalog : Catalog) (channel : Channel) (ids : List TypeId)
    (pending : OrderedMap String (List Declaration)) : OrderedMap String (List Declaration) :=
  ids.foldl (fun pending id =>
    let name := (catalog.definition id).name
    pending.set name ((pending.get? name).getD [] ++ [⟨id, channel⟩])) pending

theorem enlisted_append (pending : OrderedMap String (List Declaration)) :
    catalog.enlisted channel (ids ++ more) pending =
      catalog.enlisted channel more (catalog.enlisted channel ids pending) :=
  List.foldl_append ..

/-- Only the names of the ids matter. -/
theorem enlisted_congr (pending : OrderedMap String (List Declaration))
    (names : ∀ id ∈ ids, (after.definition id).name = (before.definition id).name) :
    after.enlisted channel ids pending = before.enlisted channel ids pending := by
  induction ids generalizing pending with
  | nil => rfl
  | cons id rest ih =>
    obtain ⟨first, others⟩ := List.forall_mem_cons.mp names
    simp only [enlisted, List.foldl_cons, first]
    exact ih _ others

theorem getD_enlisted (pending : OrderedMap String (List Declaration)) (name : String) :
    ((catalog.enlisted channel ids pending).get? name).getD [] =
      (pending.get? name).getD [] ++
        (ids.filter fun id => (catalog.definition id).name = name).map fun id => ⟨id, channel⟩ := by
  induction ids generalizing pending with
  | nil => simp [enlisted]
  | cons id rest ih =>
    rw [enlisted, List.foldl_cons, ← enlisted, ih, OrderedMap.get?_set]
    by_cases same : (catalog.definition id).name = name
    · rw [if_pos same, List.filter_cons_of_pos (by simpa using same), same]
      simp
    · rw [if_neg same, List.filter_cons_of_neg (by simpa using same)]

theorem ends_stageDeclarations_enlisted (channel : Channel) (ids : List TypeId) :
    Ends (ids.forM fun id => stageDeclaration ⟨id, channel⟩) catalog
      (fun _ after => after.arena = catalog.arena ∧
        after.pending = catalog.enlisted channel ids catalog.pending) fun _ => False := by
  induction ids generalizing catalog with
  | nil => exact ⟨rfl, rfl⟩
  | cons id rest ih =>
    rw [List.forM, ends_bind]
    exact @ih (catalog.enlist ⟨id, channel⟩)

/-! ## Appended declarations -/

/-- A reading that has put declarations of the given ids into the buckets, one after the other: ids
of named definitions that it has made itself. -/
structure Appends (channel : Channel) (before after : Catalog) (ids : List TypeId) : Prop where
  growth : Growth before.arena.size before after
  pending : after.pending = after.enlisted channel ids before.pending
  once : ids.Nodup
  named : ∀ id ∈ ids, (after.definition id).isNamed = true
  fresh : ∀ id ∈ ids, after.HoldsFrom before.arena.size id

theorem Appends.of_growth (growth : Growth before.arena.size before after)
    (pending : after.pending = before.pending) : Appends channel before after [] where
  growth := growth
  pending := pending
  once := List.nodup_nil
  named := by simp
  fresh := by simp

theorem Appends.trans (first : Appends channel before middle ids)
    (second : Appends channel middle after more) : Appends channel before after (ids ++ more) := by
  have kept : ∀ id ∈ ids, after.definition id = middle.definition id := fun id member =>
    second.growth.definition_eq (Nat.le_refl _) (first.fresh id member).2
  constructor
  · exact first.growth.trans (second.growth.mono first.growth.size_le)
  · rw [enlisted_append, second.pending, first.pending]
    congr 1
    exact (enlisted_congr _ fun id member => by rw [kept id member]).symm
  · rw [List.nodup_append]
    refine ⟨first.once, second.once, ?_⟩
    rintro id early _ late rfl
    exact absurd (first.fresh id early).2 (Nat.not_lt_of_le (second.fresh id late).1)
  · intro id member
    rcases List.mem_append.mp member with early | late
    · rw [kept id early]
      exact first.named id early
    · exact second.named id late
  · intro id member
    rcases List.mem_append.mp member with early | late
    · exact second.growth.holdsFrom (first.fresh id early)
    · exact (second.fresh id late).mono first.growth.size_le

/-- The declarations that an entry puts into the buckets: those of the named parts of its slot, in
the order of a walk, and none if it has no slot. -/
structure EntryStaged (channel : Channel) (entry : Entry) (before after : Catalog)
    (ids : List TypeId) : Prop where
  appends : Appends channel before after ids
  prose : entry.slot = none → ids = []
  whole : ∀ slot ∈ entry.slot, ∃ order, after.Preorder [] [slot.target] order ∧
    (∀ part, part ∈ order ↔ after.Reaches slot.target part) ∧
    ids = order.filter fun id => (after.definition id).isNamed

/-! ## Entries -/

/-- A slot that has been read is staged with all of its parts. -/
theorem ends_stage_entry (consistent : middle.Consistent)
    (growth : Growth before.arena.size before middle) (pending : middle.pending = before.pending)
    {slot : Slot} (own : middle.HoldsFrom before.arena.size slot.target) (channel : Channel)
    (doc : Option String) :
    Ends (stage channel slot) middle
      (fun found after => ∃ ids, EntryStaged channel ⟨doc, some found⟩ before after ids)
      fun _ => False := by
  have reading := growth.underway before.underway_size
  have grows := ends_stage reading channel own
  simp only [stage, ends_bind, ends_get, ends_pure] at grows ⊢
  refine (grows.and (ends_stageDeclarations_enlisted channel _)).mono (fun _ after staged => ?_)
    fun _ ended => ended.1
  obtain ⟨⟨further, _⟩, arena, listed⟩ := staged
  have same (id : TypeId) : after.definition id = middle.definition id := by
    rw [Catalog.definition, Catalog.definition, arena]
  have named : middle.namedReachable slot.target =
      (middle.reachable slot.target).filter fun id => (after.definition id).isNamed := by
    simp only [same]
    rfl
  refine ⟨middle.namedReachable slot.target, ⟨growth.trans further, ?_, ?_, ?_, ?_⟩, by simp, ?_⟩
  · rw [listed, pending]
    exact (enlisted_congr _ fun id _ => by rw [same]).symm
  · exact (nodup_reachableFrom _ _ [] List.nodup_nil).filter _
  · intro id member
    rw [named] at member
    exact (List.mem_filter.mp member).2
  · intro id member
    refine further.holdsFrom (forall_reachableFrom reading.closed _ [slot.target] []
      (by simpa using own) (by simp) id (List.mem_filter.mp member).1)
  · intro found given
    obtain rfl : middle.stagedSlot slot = found := Option.some.inj given
    rw [target_stagedSlot]
    refine ⟨middle.reachable slot.target, (preorder_reachable consistent own.2).of_arena arena,
      fun part => ?_, named⟩
    rw [mem_reachable_iff consistent own.2]
    exact ⟨fun reaches => reaches.of_arena arena, fun reaches => reaches.of_arena arena.symm⟩

/-- The next entry of a block is staged; if there is none, or if it fails, nothing is. -/
theorem ends_nextEntry_appends (grows : feed.Grows) (quiet : feed.Quiet) (channel : Channel)
    (eager : Bool) (prose : List String) (lines : List Line) (consistent : catalog.Consistent)
    (growth : Growth before.arena.size before catalog) (pending : catalog.pending = before.pending) :
    Ends (nextEntry feed ⟨some channel, eager⟩ prose lines) catalog
      (fun found after => match found with
        | none => Appends channel before after []
        | some (entry, _) => ∃ ids, EntryStaged channel entry before after ids)
      fun after => Appends channel before after [] := by
  induction lines generalizing prose catalog with
  | nil =>
    rw [nextEntry, ends_pure]
    cases Doc.ofLines prose with
    | none => exact .of_growth growth pending
    | some doc => exact ⟨[], .of_growth growth pending, fun _ => rfl, by simp⟩
  | cons line rest ih =>
    rw [nextEntry]
    refine ends_ite (fun _ => ih _ consistent growth pending) fun _ => ?_
    rw [ends_bind]
    refine ((ends_declaration? grows catalog.underway_size _ line).and
      ((stagesNothing_declaration? quiet _ line).ends catalog)).mono (fun slot? middle found => ?_)
        fun after found => ?_
    · obtain ⟨⟨further, own⟩, same⟩ := found
      have whole := growth.trans (further.mono growth.size_le)
      cases slot? with
      | none => exact ih _ (further.consistent consistent) whole (same.trans pending)
      | some slot =>
        simp only [ends_bind, ends_pure]
        exact (ends_stage_entry (further.consistent consistent) whole (same.trans pending)
          ((own slot rfl).mono growth.size_le) channel _).mono (fun _ _ staged => staged)
            fun _ ended => ended.elim
    · obtain ⟨further, same⟩ := found
      exact .of_growth (growth.trans (further.mono growth.size_le)) (same.trans pending)

/-! ## Blocks -/

theorem ends_drawEntries_appends (grows : feed.Grows) (quiet : feed.Quiet) (channel : Channel)
    (eager : Bool) (count : Nat) (lines : List Line) (consistent : before.Consistent) :
    Ends (drawEntries feed ⟨some channel, eager⟩ count lines) before
      (fun _ after => ∃ ids, Appends channel before after ids) fun _ => False := by
  induction count generalizing before lines with
  | zero => exact ⟨[], .of_growth .refl rfl⟩
  | succ count ih =>
    rw [drawEntries_succ, ends_bind]
    refine (ends_attempt (ends_nextEntry_appends grows quiet channel eager [] lines consistent .refl
      rfl)).imp fun result middle drawn => ?_
    cases result with
    | error => exact ⟨[], drawn⟩
    | ok found =>
      cases found with
      | none => exact ⟨[], drawn⟩
      | some next =>
        obtain ⟨ids, staged⟩ := drawn
        dsimp only
        rw [ends_bind]
        refine (ih next.2 (staged.appends.growth.consistent consistent)).imp fun _ after later => ?_
        obtain ⟨more, appends⟩ := later
        exact ⟨ids ++ more, staged.appends.trans appends⟩

theorem drawEntries_of_error {mode : Mode} {lines : List Line} {error : Error} (count : Nat)
    (failed : nextEntry feed mode [] lines catalog = .error error after) :
    drawEntries feed mode (count + 1) lines catalog = .ok ([], some error) after := by
  simp [drawEntries, failed]

theorem drawEntries_of_none {mode : Mode} {lines : List Line} (count : Nat)
    (ended : nextEntry feed mode [] lines catalog = .ok none after) :
    drawEntries feed mode (count + 1) lines catalog = .ok ([], none) after := by
  simp [drawEntries, ended]

theorem drawEntries_of_some {mode : Mode} {lines rest : List Line} {entry : Entry} {count : Nat}
    {others : List Entry} {error? : Option Error}
    (found : nextEntry feed mode [] lines catalog = .ok (some (entry, rest)) middle)
    (drawn : drawEntries feed mode count rest middle = .ok (others, error?) after) :
    drawEntries feed mode (count + 1) lines catalog = .ok (entry :: others, error?) after := by
  simp only [drawEntries, found, bind, EStateM.bind, drawn]
  rfl

theorem exists_drawEntries_eq_ok (grows : feed.Grows) (catalog : Catalog) (mode : Mode)
    (count : Nat) (lines : List Line) :
    ∃ entries error? after,
      drawEntries feed mode count lines catalog = .ok (entries, error?) after := by
  obtain ⟨⟨entries, error?⟩, after, drawn, _⟩ :=
    (ends_drawEntries grows catalog.underway_size mode count lines).exists_ok
  exact ⟨entries, error?, after, drawn⟩

/-- Drawing the first entry of a block gives that entry, staged, or nothing is staged. -/
theorem drawEntries_first (grows : feed.Grows) (quiet : feed.Quiet) (channel : Channel)
    (eager : Bool) {lines : List Line} (consistent : catalog.Consistent) {entries : List Entry}
    {error? : Option Error}
    (drawn : drawEntries feed ⟨some channel, eager⟩ 1 lines catalog = .ok (entries, error?) after) :
    (∃ entry ids, entries = [entry] ∧ error? = none ∧
        EntryStaged channel entry catalog after ids) ∨
      (entries = [] ∧ after.pending = catalog.pending) := by
  have next := ends_nextEntry_appends grows quiet channel eager [] lines consistent .refl rfl
  unfold Ends at next
  cases found : nextEntry feed ⟨some channel, eager⟩ [] lines catalog with
  | error error state =>
    rw [drawEntries_of_error 0 found] at drawn
    cases drawn
    rw [found] at next
    exact .inr ⟨rfl, next.pending⟩
  | ok entry? state =>
    rw [found] at next
    cases entry? with
    | none =>
      rw [drawEntries_of_none 0 found] at drawn
      cases drawn
      exact .inr ⟨rfl, next.pending⟩
    | some entry =>
      rw [drawEntries_of_some found rfl] at drawn
      cases drawn
      obtain ⟨ids, staged⟩ := next
      exact .inl ⟨entry.1, ids, rfl, rfl, staged⟩

/-- Drawing one entry more of a block gives that entry, staged, or nothing is staged: the entry
fails, or the block has ended before. -/
theorem drawEntries_further (grows : feed.Grows) (quiet : feed.Quiet) (channel : Channel)
    (eager : Bool) {count : Nat} {lines : List Line} (consistent : catalog.Consistent)
    {entries further : List Entry} {error? failure? : Option Error}
    (drawn : drawEntries feed ⟨some channel, eager⟩ count lines catalog =
      .ok (entries, error?) middle)
    (redrawn : drawEntries feed ⟨some channel, eager⟩ (count + 1) lines catalog =
      .ok (further, failure?) after) :
    (∃ entry ids, further = entries ++ [entry] ∧ failure? = none ∧
        EntryStaged channel entry middle after ids) ∨
      (further = entries ∧ after.pending = middle.pending) := by
  induction count generalizing catalog lines entries further with
  | zero =>
    cases drawn
    exact drawEntries_first grows quiet channel eager consistent redrawn
  | succ count ih =>
    -- Both draws begin with the same entry.
    cases found : nextEntry feed ⟨some channel, eager⟩ [] lines catalog with
    | error error state =>
      rw [drawEntries_of_error _ found] at drawn redrawn
      cases drawn
      cases redrawn
      exact .inr ⟨rfl, rfl⟩
    | ok entry? state =>
      cases entry? with
      | none =>
        rw [drawEntries_of_none _ found] at drawn redrawn
        cases drawn
        cases redrawn
        exact .inr ⟨rfl, rfl⟩
      | some entry =>
        obtain ⟨ids, staged⟩ := (ends_nextEntry_appends grows quiet channel eager [] lines
          consistent .refl rfl).of_ok found
        obtain ⟨others, _, _, first⟩ :=
          exists_drawEntries_eq_ok grows state ⟨some channel, eager⟩ count entry.2
        obtain ⟨more, _, _, second⟩ :=
          exists_drawEntries_eq_ok grows state ⟨some channel, eager⟩ (count + 1) entry.2
        rw [drawEntries_of_some found first] at drawn
        rw [drawEntries_of_some found second] at redrawn
        cases drawn
        cases redrawn
        rcases ih (staged.appends.growth.consistent consistent) first second with further | ended
        · obtain ⟨last, ids, same, unfailed, staged⟩ := further
          exact .inl ⟨last, ids, by rw [same, List.cons_append], unfailed, staged⟩
        · exact .inr ⟨by rw [ended.1], ended.2⟩

/-- A block that is read as a whole leaves what drawing all of its entries leaves. -/
theorem leaves_allEntries (mode : Mode) (lines : List Line) :
    leaves (allEntries feed mode lines) catalog =
      leaves (drawEntries feed mode (lines.length + 1) lines) catalog := by
  simp only [leaves, allEntries, bind, EStateM.bind]
  cases drawEntries feed mode (lines.length + 1) lines catalog with
  | error => rfl
  | ok found =>
    obtain ⟨_, error?⟩ := found
    cases error? <;> rfl

/-- A block that is read for its one declaration leaves what drawing some of its entries leaves. -/
theorem leaves_joinEntries (grows : feed.Grows) (mode : Mode) (text : String) (count : Nat)
    (docs : List (Option String)) (slot? : Option Slot) (lines : List Line) :
    ∃ drawn, leaves (joinEntries feed mode text count docs slot? lines) catalog =
      leaves (drawEntries feed mode drawn lines) catalog := by
  induction count generalizing catalog docs slot? lines with
  | zero => exact ⟨0, rfl⟩
  | succ count ih =>
    cases found : nextEntry feed mode [] lines catalog with
    | error error state =>
      refine ⟨1, ?_⟩
      simp [leaves, joinEntries, bind, EStateM.bind, found, drawEntries_of_error 0 found]
    | ok entry? state =>
      cases entry? with
      | none =>
        refine ⟨1, ?_⟩
        simp only [leaves, joinEntries, bind, EStateM.bind, found, drawEntries_of_none 0 found]
        rfl
      | some next =>
        obtain ⟨entry, rest⟩ := next
        by_cases several : (entry.slot.isSome && slot?.isSome) = true
        · have one : drawEntries feed mode 1 lines catalog = .ok ([entry], none) state :=
            drawEntries_of_some found (show drawEntries feed mode 0 rest state = _ from rfl)
          refine ⟨1, ?_⟩
          simp only [leaves, joinEntries, bind, EStateM.bind, found, one, if_pos several]
          rfl
        · obtain ⟨drawn, same⟩ := @ih state (docs ++ [entry.doc]) (entry.slot.or slot?) rest
          obtain ⟨others, error?, after, later⟩ := exists_drawEntries_eq_ok grows state mode drawn rest
          refine ⟨drawn + 1, ?_⟩
          rw [leaves, leaves, drawEntries_of_some found later]
          simp only [leaves, later] at same
          rw [← same]
          simp only [joinEntries, bind, EStateM.bind, found, if_neg several]

end DocShapes.Catalog
