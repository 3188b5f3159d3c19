import DocShapes.Proofs.Factoring

/-! # Docs that survive a merge

What the merge takes out of the doc of a declaration is kept for its site. It is delivered if the
site has room for a doc and is still in use: a slot of a block, a slot inside a type without a name
that is itself in use, or the first declaration of a field (`line_survives`).
-/

namespace DocShapes

namespace Doc

open Text (blank unlines linesOf)

/-- The line is a line of the doc, up to the blanks around it. -/
def hasLine (doc line : String) : Bool :=
  (linesOf doc).any fun other => Text.trim other.toList = Text.trim line.toList

theorem hasLine_of_mem {doc line : String} (member : line ∈ linesOf doc) : hasLine doc line = true :=
  List.any_eq_true.mpr ⟨line, member, by simp⟩

/-- A doc in front of others keeps its lines. -/
theorem hasLine_join {front line : String} (tidy : Doc.Tidy front) (member : line ∈ linesOf front)
    (doc : Option String) : ∃ text, join [some front, doc] = some text ∧ hasLine text line = true := by
  have visible := tidy.not_blank
  have alone : join [some front, none] = some front := by simp [join, visible]
  cases doc with
  | none => exact ⟨front, alone, hasLine_of_mem member⟩
  | some other =>
    by_cases silent : blank other = true
    · exact ⟨front, by simp [join, visible, silent], hasLine_of_mem member⟩
    · refine ⟨"\n\n".intercalate [front, other], by simp [join, visible, silent], hasLine_of_mem ?_⟩
      have gap : ("\n\n" : String) = "\n" ++ "\n" := by decide
      have same : "\n\n".intercalate [front, other] =
          unlines (linesOf front) ++ "\n" ++ ("\n" ++ other) := by
        rw [tidy.joined, String.intercalate_cons_cons, String.intercalate_singleton, gap]
        simp only [String.append_assoc]
      rw [same, Text.linesOf_unlines_append tidy.trimmed.tidy tidy.nonempty]
      exact List.mem_append_left _ member

end Doc

theorem Shape.sited_mem_slots {shape : Shape} {site : Site} (member : site ∈ shape.sites) :
    .sited site ∈ shape.slots := by
  cases shape <;> simp only [sites, List.not_mem_nil] at member <;>
    exact List.mem_map.mpr ⟨site, member, rfl⟩

namespace Catalog

variable {catalog before middle after final : Catalog} {name : String}
  {staged : List Declaration} {merged : Merged}

/-! ## What the merge leaves -/

theorem mem_or_kept_of_differing (once : (staged.map Declaration.id).Nodup)
    {declaration : Declaration} (member : declaration ∈ staged) {doc : String}
    (found : (catalog.definition declaration.id).doc = some doc) {id : TypeId} {content : Bool}
    {chosen : String} {others : List (TypeId × Bool × String)}
    (sorted : ((id, content, chosen) :: others).Perm (catalog.writtenDocs staged)) :
    doc = chosen ∨ (differing chosen others).get? declaration.id = some doc := by
  by_cases same : doc = chosen
  · exact .inl same
  · right
    have inside := sorted.mem_iff.mpr (mem_writtenDocs member found)
    have later := (List.mem_cons.mp inside).resolve_left fun equal => same (by cases equal; rfl)
    have distinct : (others.map Prod.fst).Nodup :=
      (List.nodup_cons.mp ((sorted.map Prod.fst).nodup_iff.mpr (nodup_writtenDocs once))).2
    have shape : differing chosen others = .ofList (others.filterMap fun written =>
        (if written.2.2 = chosen then none else some written.2.2).map fun doc =>
          (written.1, doc)) := by
      rw [differing]
      congr 2
      funext ⟨id, content, doc⟩
      dsimp only
      split <;> rfl
    rw [shape]
    refine (OrderedMap.get?_ofList_filterMap Prod.fst (fun written : TypeId × Bool × String =>
      if written.2.2 = chosen then none else some written.2.2) distinct later).trans ?_
    exact if_neg same

/-- What a declaration says is in the doc of the merged definition, or it is kept for the site of
the declaration. -/
theorem Made.hasLine (made : catalog.Made staged merged) (documented : catalog.Documented)
    (once : (staged.map Declaration.id).Nodup) {declaration : Declaration}
    (member : declaration ∈ staged) {doc line : String}
    (found : (catalog.definition declaration.id).doc = some doc)
    (inside : line ∈ Text.linesOf doc) (visible : Text.blank line = false) :
    (∃ text ∈ merged.definition.doc, Doc.hasLine text line = true) ∨
      ∃ rest ∈ merged.siteDocs.get? declaration.id, Doc.Tidy rest ∧ line ∈ Text.linesOf rest := by
  by_cases several : 2 ≤ (catalog.withContent staged).length ∧ 2 ≤ (catalog.writtenDocs staged).length
  · obtain ⟨fields, docs⟩ := several
    rw [← List.length_map (fun written : TypeId × Bool × String => written.2.2),
      map_writtenDocs] at docs
    obtain ⟨own, siteDocs⟩ := made.factored fields docs
    have tidy : ∀ doc ∈ staged.filterMap fun declaration =>
        (catalog.definition declaration.id).doc, Doc.Tidy doc := by
      intro doc written
      obtain ⟨other, _, found⟩ := List.mem_filterMap.mp written
      exact documented other.id doc found
    have written : doc ∈ staged.filterMap fun declaration =>
        (catalog.definition declaration.id).doc :=
      List.mem_filterMap.mpr ⟨declaration, member, found⟩
    have ends := (Doc.longestCommonEnd_sharedEnd tidy (List.ne_nil_of_mem written)).common doc written
    have trimmed := (tidy doc written).trimmed_of_suffix ends
    obtain ⟨⟨gap, blanks, split⟩, restTidy⟩ := Doc.remainder_commonTail tidy written
    rw [siteDocs, get?_remainders once _ member found, own, Doc.nonBlank_commonTail trimmed]
    rw [split, List.mem_append, List.mem_append] at inside
    rcases inside with (front | blank) | tail
    · right
      cases kept : Doc.remainder doc _ with
      | none => simp [kept, Doc.linesOf?] at front
      | some rest => exact ⟨rest, rfl, restTidy rest kept, by simpa [kept, Doc.linesOf?] using front⟩
    · simp [blanks line blank] at visible
    · left
      rw [Doc.ofRun, if_neg (List.ne_nil_of_mem tail)]
      exact ⟨_, rfl, Doc.hasLine_of_mem (by rwa [trimmed.linesOf_unlines])⟩
  · have same := made.docs
    rw [mergeDocs] at same
    simp only [ge_iff_le, Bool.and_eq_true, decide_eq_true_eq, several, if_false] at same
    have sorted := perm_sortBy (fun left right : TypeId × Bool × String =>
      left.2.1 && !right.2.1) (catalog.writtenDocs staged)
    split at same
    · rename_i empty
      rw [empty] at sorted
      have written := sorted.mem_iff.mpr (mem_writtenDocs member found)
      exact absurd written List.not_mem_nil
    · rename_i id content chosen others split
      rw [split] at sorted
      obtain ⟨own, siteDocs⟩ := Prod.mk.injEq .. ▸ same
      rw [own, siteDocs]
      rcases mem_or_kept_of_differing once member found sorted with rfl | kept
      · exact .inl ⟨doc, rfl, Doc.hasLine_of_mem inside⟩
      · exact .inr ⟨doc, kept, documented declaration.id doc found, inside⟩

/-! ## Slots that land -/

/-- A slot that has landed: it leads where its target leads, and if it has room for a doc, it has
taken the one that is kept for its target. -/
def Lands (catalog : Catalog) (slot found : Slot) : Prop :=
  ∃ landing, catalog.Delivered slot.target landing ∧ found.target = landing.target ∧
    ∀ site, slot = .sited site → ∀ rest ∈ landing.siteDoc,
      ∃ doc, found.toSite.doc = Doc.join [some rest, doc]

theorem lands_land {slot : Slot} {landing : Landing}
    (delivered : catalog.Delivered slot.target landing) :
    catalog.Lands slot (slot.land landing) := by
  refine ⟨landing, delivered, target_land slot landing, ?_⟩
  rintro site rfl rest member
  exact ⟨site.doc, by simp [Slot.land, Slot.toSite, Site.land, Option.mem_def.mp member]⟩

theorem lands_landOutside {slot : Slot} {landing : Landing}
    (delivered : catalog.Delivered slot.target landing) :
    catalog.Lands slot (landOutside slot landing) := by
  cases slot with
  | bare id =>
    refine ⟨landing, delivered, ?_, fun site same => by cases same⟩
    exact target_landOutside _ _
  | sited site => exact lands_land delivered

/-- A slot of a definition whose parts are all settled has landed. -/
theorem Delivers.lands (delivers : Delivers before after) {id : TypeId}
    (settled : ∀ child ∈ (after.shape id).children, after.Settled child) {slot : Slot}
    (inside : slot ∈ (before.shape id).slots) :
    ∃ found ∈ (after.shape id).slots, before.Lands slot found := by
  obtain ⟨landings, delivered, relinked⟩ := delivers.relinked_of_settled settled
  rw [relinked, Shape.slots_relink]
  rw [Shape.children] at delivered
  generalize (before.shape id).slots = slots at delivered inside
  clear relinked settled
  induction slots generalizing landings with
  | nil => cases inside
  | cons first rest ih =>
    cases delivered with
    | @cons _ landing _ others own more =>
      rcases List.mem_cons.mp inside with rfl | later
      · exact ⟨slot.land landing, List.mem_cons_self, lands_land own⟩
      · obtain ⟨found, member, lands⟩ := ih others more later
        exact ⟨found, List.mem_cons_of_mem _ member, lands⟩

/-! ## Dereferencing all roots -/

/-- Slots land in the catalog that they were declared in, and what they land on is walked. -/
theorem dereferenceAll_delivers {slots landed : List Slot}
    (done : dereferenceAll slots before = .ok landed after) (consistent : before.Consistent)
    (held : ∀ slot ∈ slots, before.Holds slot.target) {start : Catalog}
    (startConsistent : start.Consistent) (delivers : Delivers start before) :
    Delivers start after ∧ ∀ slot ∈ slots, ∃ found ∈ landed, start.Lands slot found ∧
      ∃ all, after.Walk [] all ∧ found.target ∈ all := by
  induction slots generalizing before landed start with
  | nil =>
    cases done
    exact ⟨delivers, by simp⟩
  | cons slot slots ih =>
    obtain ⟨slotHeld, restHeld⟩ := List.forall_mem_cons.mp held
    obtain ⟨found, middle, others, first, rest, rfl⟩ := eq_ok_of_dereferenceAll_cons done
    have settling := (ends_dereference consistent slot slotHeld).of_ok first
    obtain ⟨further, landing⟩ :=
      (ends_dereference_delivers startConsistent delivers slot slotHeld).of_ok first
    obtain ⟨landing, rfl, delivered⟩ := landing rfl
    obtain ⟨all, walk, seen⟩ := walked_of_dereference consistent slotHeld first
    have now := settling.consistent consistent
    have stillHeld : ∀ slot ∈ slots, middle.Holds slot.target := fun slot member =>
      (settling.holds_iff _).mpr (restHeld slot member)
    obtain ⟨delivers, landed⟩ := ih rest now stillHeld startConsistent further
    refine ⟨delivers, List.forall_mem_cons.mpr ⟨?_, fun slot member => ?_⟩⟩
    · exact ⟨_, List.mem_cons_self, lands_landOutside delivered, all,
        (ih rest now stillHeld now .refl).1.walk walk, seen⟩
    · obtain ⟨found, inside, rest⟩ := landed slot member
      exact ⟨found, List.mem_cons_of_mem _ inside, rest⟩

/-! ## Slots in use -/

/-- A slot that is still in use: a dereferenced one, or one of something that a dereferenced slot
or a canonical name leads to. -/
inductive InUse (catalog : Catalog) (landed : List Slot) : Slot → Prop
  | root {slot : Slot} (given : slot ∈ landed) : InUse catalog landed slot
  | canonical {name : String} {id : TypeId} {slot : Slot}
      (found : catalog.canonical? name = some id) (inside : slot ∈ (catalog.shape id).slots) :
      InUse catalog landed slot
  | part {outer slot : Slot} (used : InUse catalog landed outer)
      (inside : slot ∈ (catalog.shape outer.target).slots) : InUse catalog landed slot

theorem InUse.given_or_part {landed : List Slot} {slot : Slot} (used : catalog.InUse landed slot) :
    slot ∈ landed ∨ ∃ id, slot ∈ (catalog.shape id).slots := by
  cases used with
  | root given => exact .inl given
  | canonical _ inside | part _ inside => exact .inr ⟨_, inside⟩

/-- A slot that the merge leaves in use: one of the given ones, one of a type without a name that
such a slot leads to, or the first declaration of a field of a name. -/
inductive Surviving (catalog : Catalog) (slots : List Slot) : Slot → Prop
  | root {slot : Slot} (given : slot ∈ slots) : Surviving catalog slots slot
  | part {outer slot : Slot} (surviving : Surviving catalog slots outer)
      (unnamed : (catalog.definition outer.target).isNamed = false)
      (inside : slot ∈ (catalog.shape outer.target).slots) : Surviving catalog slots slot
  | field {name field : String} {first : Candidate} {others : List Candidate}
      (leading : (catalog.candidates (catalog.withContent (catalog.bucket name))).get? field =
        some (first :: others)) : Surviving catalog slots (.sited first.site)

/-- A part without a name is where it was, and nothing is left to resolve at it. -/
theorem MergedBlocks.settled_of_unnamed (merged : MergedBlocks before middle after)
    (gathered : before.Gathered) {id : TypeId}
    (unnamed : (before.definition id).isNamed = false) {slot : Slot}
    (inside : slot ∈ (before.shape id).slots) :
    middle.Settled id ∧ middle.shape id = before.shape id := by
  have held : before.Holds id := by
    by_contra absent
    rw [Catalog.shape, definition_of_not_holds absent] at inside
    exact absurd inside List.not_mem_nil
  have same := merged.placed.definition id held
  refine ⟨⟨?_, .inr ?_⟩, by rw [Catalog.shape, same]; rfl⟩
  · rw [merged.placed.forward id, gathered.forward]
    · rfl
    · intro name staged member listed
      obtain ⟨declaration, within, rfl⟩ := List.mem_map.mp listed
      have names := (gathered.consistent.staged name staged member).2 declaration within
      simp [names.named] at unnamed
  · rw [← Bool.not_eq_true, mentionsName_iff, same]
    rintro (unknown | ⟨named, _⟩)
    · cases shape : (before.definition id).shape <;>
        simp_all [Catalog.shape, Definition.base, Shape.base, Shape.slots]
    · simp [named] at unnamed

/-- A slot that the merge leaves in use lands, and is in use in the end. -/
theorem Surviving.lands {slots landed : List Slot} (gathered : before.Gathered)
    (merged : MergedBlocks before middle after) (delivers : Delivers middle final)
    (roots : ∀ slot ∈ slots, ∃ found ∈ landed, middle.Lands slot found ∧
      ∃ all, final.Walk [] all ∧ found.target ∈ all)
    (canonical : ∃ all, final.Walk [] all ∧
      ∀ name id, middle.canonical.get? name = some id → id ∈ all)
    {slot : Slot} (surviving : Surviving before slots slot) :
    ∃ found, final.InUse landed found ∧ middle.Lands slot found ∧
      ∃ all, final.Walk [] all ∧ found.target ∈ all := by
  -- A slot of a definition that a walk has seen.
  have inner {all : List TypeId} (walk : final.Walk [] all) {id : TypeId} (seen : id ∈ all)
      {slot : Slot} (inside : slot ∈ (middle.shape id).slots) :
      ∃ found ∈ (final.shape id).slots, middle.Lands slot found ∧ found.target ∈ all := by
    have closed : ∀ child ∈ (final.shape id).children, child ∈ all := fun child member =>
      (walk.closed id seen child member).resolve_left List.not_mem_nil
    obtain ⟨found, member, lands⟩ :=
      delivers.lands (fun child member => walk.settled child (.inr (closed child member))) inside
    exact ⟨found, member, lands, closed _ (List.mem_map.mpr ⟨found, member, rfl⟩)⟩
  induction surviving with
  | root given =>
    obtain ⟨found, member, lands, walked⟩ := roots _ given
    exact ⟨found, .root member, lands, walked⟩
  | @part outer slot _ unnamed inside ih =>
    obtain ⟨found, used, ⟨landing, delivered, target, _⟩, all, walk, seen⟩ := ih
    obtain ⟨settled, same⟩ := merged.settled_of_unnamed gathered unnamed inside
    have here : found.target = outer.target := target.trans (delivered.target settled)
    rw [← same] at inside
    obtain ⟨part, member, lands, within⟩ := inner walk (here ▸ seen) inside
    exact ⟨part, .part used (here ▸ member), lands, all, walk, within⟩
  | @field name field first others leading =>
    have nonempty : before.bucket name ≠ [] := by
      intro none
      rw [none] at leading
      cases leading
    obtain ⟨declaration, staged⟩ := List.exists_mem_of_ne_nil _ nonempty
    obtain ⟨id, content, made, placed⟩ :=
      merged.placed.placed name _ (mem_pending_of_mem_bucket staged)
    obtain ⟨site, member, target⟩ := made.leading field first others leading
    obtain ⟨all, walk, covers⟩ := canonical
    have inside : .sited site ∈ (middle.shape id).slots := by
      rw [Catalog.shape, placed.definition]
      exact Shape.sited_mem_slots member
    obtain ⟨found, member, ⟨landing, delivered, landed, doc⟩, within⟩ :=
      inner walk (covers name id placed.canonical) inside
    have known := walk.consistent.canonical?_eq (delivers.settling.canonical placed.canonical)
    refine ⟨found, .canonical known member, ⟨landing, ?_, landed, fun _ _ => doc site rfl⟩, all, walk,
      within⟩
    rwa [show (Slot.sited site).target = (Slot.sited first.site).target from target] at delivered

/-! ## Lines that survive -/

/-- The line is in the doc of the canonical definition of the name, or in the doc of a slot that is
in use. -/
def Documents (catalog : Catalog) (landed : List Slot) (name line : String) : Prop :=
  (∃ id, catalog.canonical? name = some id ∧
      ∃ text ∈ (catalog.definition id).doc, Doc.hasLine text line = true) ∨
    ∃ found, catalog.InUse landed found ∧
      ∃ text ∈ found.toSite.doc, Doc.hasLine text line = true

/-- Neither the canonical definition nor any slot at all has the line in its doc. -/
def isSilent (catalog : Catalog) (landed : List Slot) (name line : String) : Bool :=
  ((catalog.canonical? name).all fun id => (catalog.definition id).doc.all mute) &&
    (landed.all fun slot => slot.toSite.doc.all mute) &&
    catalog.arena.all fun definition => definition.shape.slots.all fun slot =>
      slot.toSite.doc.all mute
where
  mute (text : String) : Bool := !Doc.hasLine text line

theorem not_documents_of_isSilent {landed : List Slot} {line : String}
    (silent : catalog.isSilent landed name line = true) : ¬catalog.Documents landed name line := by
  obtain ⟨⟨canonical, roots⟩, parts⟩ := by simpa only [isSilent, Bool.and_eq_true] using silent
  have mute {doc : Option String} (none : (doc.all (isSilent.mute line)) = true)
      {text : String} (member : text ∈ doc) (has : Doc.hasLine text line = true) : False := by
    cases member
    simp [isSilent.mute, has] at none
  rintro (⟨id, found, text, member, has⟩ | ⟨slot, used, text, member, has⟩)
  · rw [found] at canonical
    exact mute canonical member has
  · rcases used.given_or_part with given | ⟨id, inside⟩
    · exact mute (List.all_eq_true.mp roots slot given) member has
    · by_cases held : catalog.Holds id
      · have known : catalog.definition id = catalog.arena[id.index] := dif_pos held
        rw [Catalog.shape, known] at inside
        have all := Array.all_eq_true.mp parts id.index held
        exact mute (List.all_eq_true.mp all slot inside) member has
      · rw [Catalog.shape, definition_of_not_holds held] at inside
        exact List.not_mem_nil inside

/-- A line of the doc of a declaration that blocks have given is in the doc of the canonical
definition of its name, or in the doc of a slot in use, if the merge leaves the site of the
declaration in use. -/
theorem line_survives {config : Config} {start : Catalog} {slots landed : List Slot}
    (made : ofConfig config = .ok start) (blocks : Blocks start slots before)
    (merges : mergePending before = .ok () after)
    (lands : dereferenceAll slots after = .ok landed final) {declaration : Declaration}
    (staged : declaration ∈ before.bucket name) {site : Site}
    (surviving : before.Surviving slots (.sited site)) (own : site.target = declaration.id)
    {doc line : String} (written : (before.definition declaration.id).doc = some doc)
    (inside : line ∈ Text.linesOf doc) (visible : Text.blank line = false) :
    final.Documents landed name line := by
  obtain ⟨gathered, declared⟩ := blocks.gathered (gathered_of_ofConfig made)
  obtain ⟨middle, merged⟩ := gathered.merge merges
  obtain ⟨id, content, built, placed⟩ :=
    merged.placed.placed name _ (mem_pending_of_mem_bucket staged)
  have middleConsistent := merged.merged.merging.consistent gathered.consistent
  have held : ∀ slot ∈ slots, after.Holds slot.target := fun slot member =>
    (merged.delivers.settling.holds_iff _).mpr
      (merged.placed.held _ (declared slot member).rooted.held)
  obtain ⟨all, walk, covers⟩ := merged.walk
  obtain ⟨delivers, roots⟩ :=
    dereferenceAll_delivers lands walk.consistent held middleConsistent merged.delivers
  have walk := (dereferenceAll_delivers lands walk.consistent held walk.consistent .refl).1.walk walk
  rcases built.hasLine gathered.documented (gathered.once name) staged written inside visible with
    ⟨text, found, has⟩ | ⟨rest, kept, tidy, has⟩
  · refine .inl ⟨id, walk.consistent.canonical?_eq
      (delivers.settling.canonical placed.canonical), text, ?_, has⟩
    rwa [delivers.settling.doc, placed.definition]
  · obtain ⟨found, used, ⟨landing, delivered, _, doc⟩, _⟩ :=
      surviving.lands gathered merged delivers roots ⟨all, walk, covers⟩
    have remains : landing.siteDoc = some rest := by
      rw [delivered.siteDoc, Slot.target, own, keptDoc, placed.forward _ staged]
      exact kept
    obtain ⟨before, same⟩ := doc site rfl rest remains
    obtain ⟨text, joined, has⟩ := Doc.hasLine_join tidy has before
    exact .inr ⟨found, used, text, same.trans joined, has⟩

/-- A field has the first declaration of a type that is declared again on its own. -/
def itemField : String := "x : Note\n    a : Item\n        Doc one.\n        b : int"

/-- A list has the first declaration of that type. -/
def itemList : String := "x : list(Item)\n    Doc one.\n    b : int"

def itemAlone : String := "y : Item\n    Doc two.\n    c : int"

theorem line_survives_itemField :
    ∃ slots landed before after final, Blocks empty slots before ∧
      mergePending before = .ok () after ∧ dereferenceAll slots after = .ok landed final ∧
      ∃ declaration ∈ before.bucket "Item",
        (before.definition declaration.id).doc = some "Doc one." ∧
          final.Documents landed "Item" "Doc one." := by
  let first := parseEntries ⟨some .read, false⟩ itemField
  let second := parseEntries ⟨some .read, false⟩ itemAlone
  let before := leaves second (leaves first empty)
  let slots (entries : List Entry) : List Slot := entries.filterMap Entry.slot
  have reads : succeedsWith (fun entries => succeedsWith (fun others =>
      succeeds (dereferenceAll (slots entries ++ slots others)) (leaves mergePending before))
        second (leaves first empty)) first empty = true := by decide +kernel
  have runs : succeeds mergePending before = true := by decide +kernel
  have leads : (((before.candidates (before.withContent (before.bucket "Note"))).get? "a").bind
      List.head?).any (fun first => first.site.target == ⟨1⟩) = true := by decide +kernel
  have listed : ((before.bucket "Item").any fun declaration => declaration.id == ⟨1⟩) = true := by
    decide +kernel
  have written : (before.definition ⟨1⟩).doc = some "Doc one." := by decide +kernel
  obtain ⟨firstEntries, firstDone, reads⟩ := eq_ok_of_succeedsWith reads
  obtain ⟨secondEntries, secondDone, dereferences⟩ := eq_ok_of_succeedsWith reads
  obtain ⟨landed, lands⟩ := eq_ok_of_succeeds dereferences
  obtain ⟨_, merges⟩ := eq_ok_of_succeeds runs
  obtain ⟨declaration, staged, own⟩ := List.any_eq_true.mp listed
  have own := beq_iff_eq.mp own
  rw [← own] at written
  have blocks : Blocks empty _ before :=
    .block (.block .none (.entries firstDone) (by decide +kernel)) (.entries secondDone)
      (by decide +kernel)
  obtain ⟨first, leading, target⟩ := (Option.any_eq_true _ _).mp leads
  obtain ⟨all, found, head⟩ := Option.bind_eq_some_iff.mp leading
  obtain ⟨others, rfl⟩ := List.head?_eq_some_iff.mp head
  exact ⟨_, landed, before, _, _, blocks, merges, lands, declaration, staged, written,
    @line_survives _ _ _ _ .standard _ _ _ rfl blocks merges lands _ staged _ (.field found)
      ((beq_iff_eq.mp target).trans own.symm) _ _ written (by decide +kernel) (by decide +kernel)⟩

/-- The item of a list has no room for a doc: what the merge keeps for it is dropped. -/
theorem line_lost_itemList :
    ∃ slots landed before after final, Blocks empty slots before ∧
      mergePending before = .ok () after ∧ dereferenceAll slots after = .ok landed final ∧
      ∃ declaration ∈ before.bucket "Item",
        (before.definition declaration.id).doc = some "Doc one." ∧
          ¬final.Documents landed "Item" "Doc one." := by
  let first := parseEntries ⟨some .read, false⟩ itemList
  let second := parseEntries ⟨some .read, false⟩ itemAlone
  let before := leaves second (leaves first empty)
  let slots (entries : List Entry) : List Slot := entries.filterMap Entry.slot
  have reads : succeedsWith (fun entries => succeedsWith (fun others =>
      let lands := dereferenceAll (slots entries ++ slots others)
      let after := leaves mergePending before
      succeedsWith (fun landed => (leaves lands after).isSilent landed "Item" "Doc one.") lands after)
        second (leaves first empty)) first empty = true := by decide +kernel
  have runs : succeeds mergePending before = true := by decide +kernel
  have listed : ((before.bucket "Item").any fun declaration =>
      (before.definition declaration.id).doc == some "Doc one.") = true := by decide +kernel
  obtain ⟨firstEntries, firstDone, reads⟩ := eq_ok_of_succeedsWith reads
  obtain ⟨secondEntries, secondDone, silent⟩ := eq_ok_of_succeedsWith reads
  obtain ⟨landed, lands, silent⟩ := eq_ok_of_succeedsWith silent
  obtain ⟨_, merges⟩ := eq_ok_of_succeeds runs
  obtain ⟨declaration, staged, written⟩ := List.any_eq_true.mp listed
  have blocks : Blocks empty _ before :=
    .block (.block .none (.entries firstDone) (by decide +kernel)) (.entries secondDone)
      (by decide +kernel)
  exact ⟨_, landed, before, _, _, blocks, merges, lands, declaration, staged,
    beq_iff_eq.mp written, not_documents_of_isSilent silent⟩

end Catalog

end DocShapes
