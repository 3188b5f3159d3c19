import DocShapes.Proofs.Placing

/-! # Docs of merged records

When several declarations of a name have content and several have a doc, the merge gives the
canonical definition what all the docs end in. Each declaration of a block keeps the rest, and its
site takes the rest when it is dereferenced (`documentation_factored`).
-/

namespace DocShapes

namespace Doc

open Text (blank unlines linesOf)

/-- The doc is a front, some empty lines, and a tail; either of them may be missing. -/
def SplitsInto (doc : String) (front tail : Option String) : Prop :=
  ∃ count, doc = unlines (linesOf? front ++ List.replicate count "" ++ linesOf? tail)

/-- A doc is the doc of its last lines behind what it says beyond the common tail. -/
theorem splitsInto_remainder {docs : List String} {doc : String}
    (tidy : ∀ doc ∈ docs, Doc.Tidy doc) (member : doc ∈ docs) :
    SplitsInto doc (remainder doc (commonTail docs)) (ofRun (sharedEnd docs).reverse) := by
  have docTidy := tidy doc member
  have ends := (longestCommonEnd_sharedEnd tidy (List.ne_nil_of_mem member)).common doc member
  obtain ⟨⟨gap, blanks, split⟩, _⟩ := remainder_commonTail tidy member
  have empty : gap = List.replicate gap.length "" := by
    refine List.eq_replicate_of_mem fun line inside => ?_
    have within : line ∈ linesOf doc := by
      rw [split]
      exact List.mem_append_left _ (List.mem_append_right _ inside)
    exact (docTidy.trimmed.tidy line within).eq_empty (blanks line inside)
  refine ⟨gap.length, ?_⟩
  rw [linesOf?_ofRun (docTidy.trimmed_of_suffix ends), ← empty, ← split, docTidy.joined]

end Doc

namespace Catalog

variable {catalog before middle after : Catalog} {name : String} {staged : List Declaration}

/-! ## Docs of declarations -/

/-- The docs that channels have declared for a name, in the order of their declarations. -/
def docsOf (catalog : Catalog) (name : String) : List String :=
  (catalog.bucket name).filterMap fun declaration => (catalog.definition declaration.id).doc

/-- In gathered declarations these are the docs of all definitions of the name. -/
theorem Gathered.mem_docsOf (gathered : catalog.Gathered) {doc : String} :
    doc ∈ catalog.docsOf name ↔
      ∃ id, catalog.Names id name ∧ (catalog.definition id).doc = some doc := by
  rw [docsOf, List.mem_filterMap]
  constructor
  · rintro ⟨declaration, member, found⟩
    exact ⟨declaration.id, gathered.consistent.names_of_bucket member, found⟩
  · rintro ⟨id, names, found⟩
    obtain ⟨channel, member⟩ := gathered.whole id names.held names.named
    rw [names.same] at member
    exact ⟨_, member, found⟩

theorem Gathered.tidy_docsOf (gathered : catalog.Gathered) (name : String) :
    ∀ doc ∈ catalog.docsOf name, Doc.Tidy doc := by
  intro doc member
  obtain ⟨id, _, found⟩ := gathered.mem_docsOf.mp member
  exact gathered.documented id doc found

theorem map_writtenDocs (catalog : Catalog) (staged : List Declaration) :
    ((catalog.writtenDocs staged).map fun (_, _, doc) => doc) =
      staged.filterMap fun declaration => (catalog.definition declaration.id).doc := by
  rw [writtenDocs, List.map_filterMap]
  refine List.filterMap_congr fun declaration _ => ?_
  cases found : (catalog.definition declaration.id).doc <;> simp [found]

theorem nodup_writtenDocs (once : (staged.map Declaration.id).Nodup) :
    ((catalog.writtenDocs staged).map Prod.fst).Nodup := by
  refine List.Nodup.sublist ?_ once
  rw [writtenDocs, List.map_filterMap]
  induction staged with
  | nil => exact List.Sublist.slnil
  | cons declaration rest ih =>
    have rest := ih (List.nodup_cons.mp once).2
    cases found : (catalog.definition declaration.id).doc with
    | none => simpa [found] using rest.cons declaration.id
    | some => simpa [found] using rest.cons_cons declaration.id

theorem mem_writtenDocs {declaration : Declaration} (member : declaration ∈ staged) {doc : String}
    (found : (catalog.definition declaration.id).doc = some doc) :
    (declaration.id, (catalog.definition declaration.id).hasContent, doc) ∈
      catalog.writtenDocs staged :=
  List.mem_filterMap.mpr ⟨declaration, member, by simp [found]⟩

/-- What the site of a declaration keeps beyond a tail. -/
theorem get?_remainders (once : (staged.map Declaration.id).Nodup) (tail : String)
    {declaration : Declaration} (member : declaration ∈ staged) {doc : String}
    (found : (catalog.definition declaration.id).doc = some doc) :
    (remainders tail (catalog.writtenDocs staged)).get? declaration.id =
      Doc.remainder doc tail :=
  OrderedMap.get?_ofList_filterMap (fun written : TypeId × Bool × String => written.1)
    (fun written => Doc.remainder written.2.2 tail) (nodup_writtenDocs once)
    (mem_writtenDocs member found)

/-- With several contents and several docs the docs are factored. -/
theorem Made.factored {merged : Merged} (made : catalog.Made staged merged)
    (fields : 2 ≤ (catalog.withContent staged).length)
    (docs : 2 ≤ (staged.filterMap fun declaration =>
      (catalog.definition declaration.id).doc).length) :
    let tail := Doc.commonTail (staged.filterMap fun declaration =>
      (catalog.definition declaration.id).doc)
    merged.definition.doc = Text.nonBlank tail ∧
      merged.siteDocs = remainders tail (catalog.writtenDocs staged) := by
  have count : 2 ≤ (catalog.writtenDocs staged).length := by
    rwa [← map_writtenDocs, List.length_map] at docs
  have same := made.docs
  simp only [mergeDocs, ge_iff_le, fields, count, decide_true, Bool.and_self, if_true,
    map_writtenDocs, Prod.mk.injEq] at same
  exact same

/-! ## Roots -/

/-- An id that leads to a settled definition. -/
theorem resolve_eq_of_forward (consistent : catalog.Consistent) {id : TypeId} {landing : Landing}
    (found : catalog.forward.get? id = some landing) (settled : catalog.Settled landing.target) :
    resolve id catalog = .ok landing catalog := by
  have here : catalog.landing id = landing := by rw [consistent.landing_eq, found]; rfl
  rw [consistent.resolve_eq_landing (by rwa [here]), here]

/-- A slot whose target leads to something that is settled throughout lands there at once. -/
theorem dereference_eq_of_forward {all : List TypeId} (walk : catalog.Walk [] all) {slot : Slot}
    {landing : Landing} (found : catalog.forward.get? slot.target = some landing)
    (seen : landing.target ∈ all) :
    dereference slot catalog = .ok (landOutside slot landing, none) catalog := by
  have resolves := resolve_eq_of_forward walk.consistent found (walk.settled _ (.inr seen))
  have settles : settle [landing.target] catalog = .ok () catalog := by
    refine eq_ok_of_ends ?_
    simp only [settle, ends_bind, ends_get]
    exact ends_of_eq_ok (walk.settleFrom_eq _ _ _ (by simpa using seen)) ⟨trivial, rfl⟩
  refine eq_ok_of_ends ?_
  rw [dereference, ends_bind]
  refine ends_of_eq_ok (attempt_of_ok resolves) ?_
  dsimp only
  rw [ends_bind]
  exact ends_of_eq_ok (attempt_of_ok settles) ⟨rfl, rfl⟩

/-- A site without a doc takes the doc that is kept for it. -/
theorem doc_land {site : Site} (silent : site.doc = none) {landing : Landing}
    (visible : ∀ doc ∈ landing.siteDoc, Text.blank doc = false) :
    (site.land landing).doc = landing.siteDoc := by
  obtain ⟨target, siteDoc⟩ := landing
  cases siteDoc with
  | none => exact silent
  | some doc => simp [Site.land, silent, Doc.join, visible doc rfl]

/-- After a merge everything that a canonical definition is made of is settled. -/
theorem MergedBlocks.walk (merged : MergedBlocks before middle after) :
    ∃ all, after.Walk [] all ∧
      ∀ name id, middle.canonical.get? name = some id → id ∈ all := by
  obtain ⟨ids, walked, covers⟩ := merged.merged.settled
  obtain ⟨all, walk, within, _⟩ := walked.walk
  exact ⟨all, walk, fun name id found => within id (.inl (covers name id found))⟩

/-! ## Factored docs -/

/-- When blocks have given a name at least two contents and at least two docs, the merge makes the
longest common end of all its docs the doc of the canonical definition. From then on, whatever has
been dereferenced before, the site of each of its declarations that a block has given takes what
the doc of the declaration says beyond that end. -/
theorem documentation_factored {config : Config} {start : Catalog} {slots : List Slot}
    (made : ofConfig config = .ok start) (blocks : Blocks start slots before)
    (fields : 2 ≤ (before.withContent (before.bucket name)).length)
    (docs : 2 ≤ (before.docsOf name).length)
    (merges : mergePending before = .ok () after) :
    ∃ id run, after.canonical? name = some id ∧
      Doc.LongestCommonEnd (before.docsOf name) run ∧
      (after.definition id).doc = Doc.ofRun run ∧
      ∀ slot ∈ slots, before.Names slot.target name →
        ∀ doc, (before.definition slot.target).doc = some doc →
          ∀ earlier : List Slot, (∀ other ∈ earlier, after.Holds other.target) →
            let later := after.run (earlier.map .dereference)
            ∃ site, dereference slot later = .ok (.sited site, none) later ∧ site.target = id ∧
              (later.definition id).doc = (after.definition id).doc ∧
              Doc.SplitsInto doc site.doc (after.definition id).doc := by
  obtain ⟨gathered, declared⟩ := blocks.gathered (gathered_of_ofConfig made)
  obtain ⟨middle, merged⟩ := gathered.merge merges
  obtain ⟨all, walk, covers⟩ := merged.walk
  obtain ⟨declaration, staged⟩ := List.length_pos_iff_exists_mem.mp
    (fields.trans' Nat.zero_lt_two : 0 < (before.withContent (before.bucket name)).length)
  obtain ⟨id, content, built, placed⟩ := merged.placed.placed name _
    (mem_pending_of_mem_bucket (List.mem_of_mem_filter staged))
  obtain ⟨doc, siteDocs⟩ := built.factored fields docs
  have tidy := gathered.tidy_docsOf name
  have nonempty : before.docsOf name ≠ [] := by
    rintro none
    simp [none] at docs
  have longest := Doc.longestCommonEnd_sharedEnd tidy nonempty
  have trimmed : Doc.Trimmed (Doc.dropBlankStart (Doc.sharedEnd (before.docsOf name)).reverse) := by
    obtain ⟨first, member⟩ := List.exists_mem_of_ne_nil _ nonempty
    exact (tidy first member).trimmed_of_suffix (longest.common first member)
  have canonical := merged.delivers.settling.canonical placed.canonical
  have ownDoc : (after.definition id).doc =
      Doc.ofRun (Doc.sharedEnd (before.docsOf name)).reverse := by
    rw [merged.delivers.settling.doc, placed.definition, doc]
    exact Doc.nonBlank_commonTail trimmed
  refine ⟨id, _, walk.consistent.canonical?_eq canonical, longest, ownDoc,
    fun slot member names own written earlier held => ?_⟩
  obtain ⟨rooted, channel, whole⟩ := declared slot member
  have waits := whole slot.target .refl names.named
  rw [names.same] at waits
  -- Dereferencing other slots before leaves all that matters here as it is.
  have middleConsistent := merged.merged.merging.consistent gathered.consistent
  have later := merged.delivers.run middleConsistent earlier held
  have still := Delivers.refl.run walk.consistent earlier held
  generalize after.run (earlier.map .dereference) = last at later still
  have forward := later.keeps.forward _ _ (placed.forward _ waits)
  rw [siteDocs, get?_remainders (gathered.once name) _ waits written] at forward
  obtain ⟨site, rfl⟩ := rooted.sited names.named
  have silent : site.doc = none := rooted.once.resolve_right (by
    rw [show (before.definition _).doc = some own from written]
    simp)
  have inside : own ∈ before.docsOf name := gathered.mem_docsOf.mpr ⟨_, names, written⟩
  have seen := covers name id placed.canonical
  refine ⟨_, dereference_eq_of_forward (still.walk walk) forward seen, rfl,
    still.settling.doc id, ?_⟩
  rw [ownDoc, doc_land silent fun rest same => ((Doc.remainder_commonTail tidy inside).2 rest
    same).not_blank]
  exact Doc.splitsInto_remainder tidy inside

/-- Two channels declare one name, with docs that end in the same paragraph. -/
def readNote : String := "x : Note\n    A.\n\n    C.\n\n    a : int"

def writeNote : String := "y : Note\n    B.\n\n    C.\n\n    b : int"

theorem documentation_factored_twoChannels :
    ∃ slots before after, Blocks empty slots before ∧ slots.length = 2 ∧
      mergePending before = .ok () after ∧
      ∃ id run, after.canonical? "Note" = some id ∧
        Doc.LongestCommonEnd (before.docsOf "Note") run ∧
        (after.definition id).doc = Doc.ofRun run ∧
        ∀ slot ∈ slots, before.Names slot.target "Note" →
          ∀ doc, (before.definition slot.target).doc = some doc →
            ∀ earlier : List Slot, (∀ other ∈ earlier, after.Holds other.target) →
              let later := after.run (earlier.map .dereference)
              ∃ site, dereference slot later = .ok (.sited site, none) later ∧ site.target = id ∧
                (later.definition id).doc = (after.definition id).doc ∧
                Doc.SplitsInto doc site.doc (after.definition id).doc := by
  let first := parseEntries ⟨some .read, false⟩ readNote
  let second := parseEntries ⟨some .write, false⟩ writeNote
  let one (entries : List Entry) : Bool := (entries.filterMap Entry.slot).length == 1
  have readFirst : succeedsWith one first empty = true := by decide +kernel
  have readSecond : succeedsWith one second (leaves first empty) = true := by decide +kernel
  let before := leaves second (leaves first empty)
  have fields : 2 ≤ (before.withContent (before.bucket "Note")).length := by decide +kernel
  have docs : 2 ≤ (before.docsOf "Note").length := by decide +kernel
  have runs : succeeds mergePending before = true := by decide +kernel
  obtain ⟨firstEntries, firstDone, firstOne⟩ := eq_ok_of_succeedsWith readFirst
  obtain ⟨secondEntries, secondDone, secondOne⟩ := eq_ok_of_succeedsWith readSecond
  obtain ⟨_, merges⟩ := eq_ok_of_succeeds runs
  have blocks : Blocks empty _ before :=
    .block (.block .none (.entries firstDone) (by decide +kernel)) (.entries secondDone)
      (by decide +kernel)
  have two : ([] ++ firstEntries.filterMap Entry.slot ++
      secondEntries.filterMap Entry.slot).length = 2 := by
    rw [List.nil_append, List.length_append, beq_iff_eq.mp firstOne, beq_iff_eq.mp secondOne]
  exact ⟨_, before, _, blocks, two, merges,
    @documentation_factored _ _ _ .standard _ _ rfl blocks fields docs merges⟩

end Catalog

end DocShapes
