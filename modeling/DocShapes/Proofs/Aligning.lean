import DocShapes.Proofs.Dereferencing
import DocShapes.Proofs.Descents
import DocShapes.Proofs.Leading
import DocShapes.Proofs.Merging
import DocShapes.Proofs.Twins

/-! # Catalogs that settle in the same way

Two merged catalogs are aligned when their definitions correspond: those without a name one to one,
and the others by the names that they lead to, of which each is known in both catalogs and means
the same. Wherever one of two aligned catalogs can be settled the other one can, and they stay
aligned (`simulates_dereferenceAll`). Aligned catalogs have the same dump.
-/

namespace DocShapes.Catalog

variable {meets lands : TypeId → TypeId → Prop} {left right : Catalog} {one other : TypeId}

/-! ## The relation -/

/-- Two definitions that correspond: both have no name, or they lead to one name with the same doc
for the site. -/
inductive Pairs (lands : TypeId → TypeId → Prop) (left right : Catalog) (one other : TypeId) : Prop
  | plain (lands : lands one other) (unnamed : (left.definition one).isNamed = false)
      (unforwarded : left.forward.get? one = none) (unforwarded' : right.forward.get? other = none)
      (strange : (left.definition one).base = .unknown → left.known? (left.wanted one) = none)
  | titled {name : String} {doc : Option String} (names : left.Names one name)
      (names' : right.Names other name) (leads : left.Leads one name doc)
      (leads' : right.Leads other name doc)

/-- What meets corresponds, and what lands is settled alike: definitions without a name, and those
that a name is known by. -/
structure Aligned (meets lands : TypeId → TypeId → Prop) (left right : Catalog) : Prop where
  consistent : left.Consistent
  consistent' : right.Consistent
  unique : Relator.BiUnique lands
  inside : ∀ {one other}, lands one other → meets one other
  aliases : right.aliases = left.aliases
  keys : right.canonical.keys = left.canonical.keys
  known : ∀ name, Option.Rel lands (left.known? name) (right.known? name)
  twins : ∀ {one other}, lands one other → left.Holds one ∧ right.Holds other ∧
    (left.definition one).Twin meets (right.definition other)
  pairs : ∀ {one other}, meets one other → Pairs lands left right one other

namespace Aligned

theorem held (aligned : Aligned meets lands left right) (met : meets one other) :
    left.Holds one ∧ right.Holds other := by
  cases aligned.pairs met with
  | plain lands =>
    obtain ⟨held, held', _⟩ := aligned.twins lands
    exact ⟨held, held'⟩
  | titled names names' => exact ⟨names.held, names'.held⟩

/-- The canonical names stand in one order. -/
theorem entries (aligned : Aligned meets lands left right) :
    List.Forall₂ (fun entry entry' : String × TypeId =>
      entry.1 = entry'.1 ∧ lands entry.2 entry'.2) left.canonical.entries
        right.canonical.entries := by
  have lengths : left.canonical.entries.length = right.canonical.entries.length := by
    have same := congrArg List.length aligned.keys
    rw [OrderedMap.keys, OrderedMap.keys, List.length_map, List.length_map] at same
    exact same.symm
  refine List.forall₂_iff_get.mpr ⟨lengths, fun index inside inside' => ?_⟩
  have keys : (left.canonical.entries.get ⟨index, inside⟩).1 =
      (right.canonical.entries.get ⟨index, inside'⟩).1 := by
    have same := congrArg (fun keys : List String => keys[index]?) aligned.keys
    simpa [OrderedMap.keys, inside, inside'] using same.symm
  have found := OrderedMap.get?_of_mem_entries aligned.consistent.distinct
    (List.get_mem left.canonical.entries ⟨index, inside⟩)
  have found' := OrderedMap.get?_of_mem_entries aligned.consistent'.distinct
    (List.get_mem right.canonical.entries ⟨index, inside'⟩)
  have known := aligned.known (left.canonical.entries.get ⟨index, inside⟩).1
  rw [known?_of_canonical found, keys, known?_of_canonical found'] at known
  cases known with
  | some landed => exact ⟨keys, landed⟩

/-! ## Changes -/

theorem lead (aligned : Aligned meets lands left right) {name : String}
    {source target source' target' : TypeId} (defers : left.Defers name source target)
    (defers' : right.Defers name source' target')
    (consistent : (left.lead name source target).Consistent)
    (consistent' : (right.lead name source' target').Consistent) :
    Aligned meets lands (left.lead name source target) (right.lead name source' target') where
  consistent := consistent
  consistent' := consistent'
  unique := aligned.unique
  inside := aligned.inside
  aliases := by
    rw [lead_aliases, lead_aliases]
    exact aligned.aliases
  keys := by
    rw [lead_canonical, lead_canonical, OrderedMap.keys_set, OrderedMap.keys_set, aligned.keys]
  known word := by
    rw [defers.known?_lead, defers'.known?_lead]
    exact aligned.known word
  twins {one other} landed := by
    rw [definition_lead, definition_lead, Holds, Holds, lead_arena, lead_arena]
    exact aligned.twins landed
  pairs {one other} met := by
    cases aligned.pairs met with
    | plain landed unnamed unforwarded unforwarded' strange =>
      obtain ⟨_, _, twin⟩ := aligned.twins landed
      -- Only a definition with a name gives way.
      have kept {catalog : Catalog} {source target id : TypeId}
          (defers : catalog.Defers name source target)
          (unnamed : (catalog.definition id).isNamed = false)
          (unforwarded : catalog.forward.get? id = none) :
          (catalog.lead name source target).forward.get? id = none := by
        rw [forward_lead]
        split
        · exact unforwarded
        · rename_i different
          rw [OrderedMap.get?_set, if_neg]
          · exact unforwarded
          · rintro rfl
            have named := (defers.mention.resolve_left (Ne.symm different)).1.named
            rw [unnamed] at named
            cases named
      refine .plain landed (by rw [definition_lead, unnamed]) (kept defers unnamed unforwarded)
        (kept defers' (twin.isNamed.trans unnamed) unforwarded') fun unknown => ?_
      rw [definition_lead] at unknown
      rw [defers.known?_lead, wanted, definition_lead, resolveAlias, lead_aliases]
      exact strange unknown
    | titled names names' leads leads' =>
      exact .titled names.lead names'.lead (defers.leads_lead leads names)
        (defers'.leads_lead leads' names')

theorem relinked (aligned : Aligned meets lands left right) (landed : lands one other)
    {landings landings' : List Landing}
    (same : List.Forall₂ (Landing.Twin lands) landings landings')
    (length : landings.length = (left.shape one).slots.length)
    (length' : landings'.length = (right.shape other).slots.length)
    (consistent : (left.relinked one landings).Consistent)
    (consistent' : (right.relinked other landings').Consistent) :
    Aligned meets lands (left.relinked one landings) (right.relinked other landings') where
  consistent := consistent
  consistent' := consistent'
  unique := aligned.unique
  inside := aligned.inside
  aliases := aligned.aliases
  keys := aligned.keys
  known := aligned.known
  twins {first second} reached := by
    obtain ⟨held, held', twin⟩ := aligned.twins reached
    refine ⟨(holds_put _ _ _ _).mpr held, (holds_put _ _ _ _).mpr held', ?_⟩
    have own : first = one ↔ second = other := Relator.rel_eq aligned.unique reached landed
    rw [Catalog.relinked, Catalog.relinked, definition_put, definition_put]
    by_cases here : first = one
    · have there := own.mp here
      subst here
      subst there
      rw [if_pos ⟨rfl, held⟩, if_pos ⟨rfl, held'⟩]
      exact ⟨(twin.shape.relink same).imp fun _ _ => aligned.inside, twin.doc, twin.annotations⟩
    · rw [if_neg fun same => here same.1, if_neg fun same => here (own.mpr same.1)]
      exact twin
  pairs {first second} met := by
    cases aligned.pairs met with
    | plain reached unnamed unforwarded unforwarded' strange =>
      have alike : ((left.relinked one landings).definition first).base =
          (left.definition first).base ∧ ((left.relinked one landings).definition first).name =
          (left.definition first).name ∧ ((left.relinked one landings).definition first).isNamed =
          (left.definition first).isNamed := by
        rw [Catalog.relinked, definition_put]
        split
        · rename_i same
          rw [same.1]
          exact ⟨base_relink _ _, name_relink _ _, isNamed_relink _ _⟩
        · exact ⟨rfl, rfl, rfl⟩
      refine .plain reached (alike.2.2.trans unnamed) unforwarded unforwarded' fun unknown => ?_
      rw [wanted, alike.2.1]
      exact strange (alike.1.symm.trans unknown)
    | titled names names' leads leads' =>
      exact .titled (names.relinked _) (names'.relinked _) (leads.relinked length)
        (leads'.relinked length')

end Aligned

/-! ## Resolving and settling -/

theorem simulates_resolve (aligned : Aligned meets lands left right) (met : meets one other) :
    Simulates (resolve one) left (resolve other) right fun landing after landing' later =>
      landing.Twin lands landing' ∧ Aligned meets lands after later := by
  obtain ⟨held, held'⟩ := aligned.held met
  intro landing after done
  have resolved := resolve_eq aligned.consistent held
  have resolved' := resolve_eq aligned.consistent' held'
  cases aligned.pairs met with
  | plain landed unnamed unforwarded unforwarded' strange =>
    obtain ⟨_, _, twin⟩ := aligned.twins landed
    rw [aligned.consistent.landing_eq, unforwarded] at resolved
    rw [aligned.consistent'.landing_eq, unforwarded'] at resolved'
    have mention : left.mentionsName one = true ↔ (left.definition one).base = .unknown := by
      rw [mentionsName_iff, unnamed]
      simp
    have mention' : right.mentionsName other = true ↔ (left.definition one).base = .unknown := by
      rw [mentionsName_iff, twin.isNamed, twin.base, unnamed]
      simp
    by_cases unknown : (left.definition one).base = .unknown
    · simp only [Option.getD_none, if_pos (mention.mpr unknown), strange unknown, done] at resolved
      cases resolved
    · simp only [Option.getD_none, if_neg (mt mention.mp unknown), done] at resolved
      simp only [Option.getD_none, if_neg (mt mention'.mp unknown)] at resolved'
      cases resolved
      exact ⟨_, _, resolved', ⟨landed, rfl⟩, aligned⟩
  | @titled name doc names names' leads leads' =>
    obtain ⟨source, target, defers, led⟩ := leads.resolve_eq aligned.consistent names
    obtain ⟨source', target', defers', led'⟩ := leads'.resolve_eq aligned.consistent' names'
    have further := ((ends_resolve aligned.consistent held).of_ok led).settling.consistent
      aligned.consistent
    have further' := ((ends_resolve aligned.consistent' held').of_ok led').settling.consistent
      aligned.consistent'
    rw [led] at done
    cases done
    have targets := aligned.known name
    rw [defers.known, defers'.known] at targets
    cases targets with
    | some landed =>
      exact ⟨_, _, led', ⟨landed, rfl⟩, aligned.lead defers defers' further further'⟩

/-- Both walks have the steps to see everything. -/
theorem simulates_settleFrom (fuel : Nat) (aligned : Aligned meets lands left right)
    {stack seen stack' seen' : List TypeId} (ahead : List.Forall₂ lands stack stack')
    (seens : List.Forall₂ lands seen seen')
    (enough : stack.length + left.unseenSlots seen ≤ fuel) {fuel' : Nat}
    (enough' : stack'.length + right.unseenSlots seen' ≤ fuel') :
    Simulates (settleFrom fuel stack seen) left (settleFrom fuel' stack' seen') right
      fun _ after _ later => Aligned meets lands after later := by
  induction fuel generalizing left right stack seen stack' seen' fuel' with
  | zero =>
    obtain rfl : stack = [] := List.length_eq_zero_iff.mp (by omega)
    cases ahead
    intro _ _ done
    cases done
    exact ⟨_, _, by cases fuel' <;> rfl, aligned⟩
  | succ fuel ih =>
    cases ahead with
    | nil =>
      intro _ _ done
      cases done
      exact ⟨_, _, by cases fuel' <;> rfl, aligned⟩
    | @cons id id' stack stack' landed rest =>
      rw [List.length_cons] at enough enough'
      obtain ⟨fuel', rfl⟩ : ∃ less, fuel' = less + 1 := ⟨fuel' - 1, by omega⟩
      have met : id ∈ seen ↔ id' ∈ seen' := List.rel_mem aligned.unique landed seens
      rw [settleFrom, settleFrom]
      refine simulates_ite met (fun _ _ => ih aligned rest seens (by omega) (by omega))
        fun unseen unseen' => simulates_get ?_
      obtain ⟨held, held', twin⟩ := aligned.twins landed
      refine (simulates_mapM (fun _ _ _ _ met aligned => simulates_resolve aligned met)
        twin.shape.children aligned).bind ?_
      rintro landings middle landings' middle' made made' ⟨same, between⟩
      have every := (ends_mapM_resolve aligned.consistent _
        (aligned.consistent.linked id held)).of_ok made
      have every' := (ends_mapM_resolve aligned.consistent' _
        (aligned.consistent'.linked id' held')).of_ok made'
      have kept : middle.shape id = left.shape id := by
        rw [Catalog.shape, Catalog.definition, every.arena]
        rfl
      have kept' : middle'.shape id' = right.shape id' := by
        rw [Catalog.shape, Catalog.definition, every'.arena]
        rfl
      have length := length_of_leads every.leads
      have length' := length_of_leads every'.leads
      have linked : Simulates
          (setDefinition id { middle.definition id with
            shape := (middle.definition id).shape.relink landings }) middle
          (setDefinition id' { middle'.definition id' with
            shape := (middle'.definition id').shape.relink landings' }) middle'
          fun _ after _ later => after = middle.relinked id landings ∧
            later = middle'.relinked id' landings' := simulates_modify ⟨rfl, rfl⟩
      refine simulates_get (linked.bind ?_)
      rintro _ _ _ _ _ _ ⟨rfl, rfl⟩
      have relinked := between.relinked landed same (by rw [kept, length]) (by rw [kept', length'])
        ((every.relink held).consistent between.consistent)
        ((every'.relink held').consistent between.consistent')
      refine ih relinked (List.rel_append (List.rel_map (fun _ _ twin => twin.target) same) rest)
        (.cons landed seens) ?_ ?_
      · have split := unseenSlots_cons held unseen
        rw [every.unseenSlots_relinked held, List.length_append, List.length_map]
        omega
      · have split := unseenSlots_cons held' unseen'
        rw [every'.unseenSlots_relinked held', List.length_append, List.length_map]
        omega

theorem simulates_settle (aligned : Aligned meets lands left right) {ids ids' : List TypeId}
    (same : List.Forall₂ lands ids ids') :
    Simulates (settle ids) left (settle ids') right
      fun _ after _ later => Aligned meets lands after later := by
  refine simulates_get (simulates_settleFrom _ aligned same .nil ?_ ?_)
  · rw [unseenSlots_nil]
  · rw [unseenSlots_nil]

/-- Both settle the names that they have in common, in the order of these names. -/
theorem simulates_settleCanonical (aligned : Aligned meets lands left right) :
    Simulates settleCanonical left settleCanonical right
      fun _ after _ later => Aligned meets lands after later := by
  refine simulates_get (simulates_settle aligned ?_)
  have entries := aligned.entries
  have sorted : List.Forall₂ _
      (sortBy (fun one other => decide (one.1 < other.1)) left.canonical.entries)
      (sortBy (fun one other => decide (one.1 < other.1)) right.canonical.entries) :=
    forall₂_sortBy (fun _ _ _ _ same same' => by rw [same.1, same'.1]) entries
  exact List.rel_map (fun _ _ same => same.2) sorted

theorem simulates_dereference (aligned : Aligned meets lands left right) {slot slot' : Slot}
    (twin : slot.Twin meets slot') {landed : Slot} {after : Catalog}
    (done : dereference slot left = .ok (landed, none) after) :
    ∃ landed' later, dereference slot' right = .ok (landed', none) later ∧
      Aligned meets lands after later := by
  rw [dereference] at done ⊢
  cases resolved : resolve slot.target left with
  | error error state =>
    rw [bind_of_ok (attempt_of_error resolved)] at done
    cases done
  | ok landing middle =>
    obtain ⟨landing', middle', resolved', same, between⟩ :=
      simulates_resolve aligned twin.target landing middle resolved
    rw [bind_of_ok (attempt_of_ok resolved)] at done
    rw [bind_of_ok (attempt_of_ok resolved')]
    dsimp only at done ⊢
    cases settled : settle [landing.target] middle with
    | error error state =>
      rw [bind_of_ok (attempt_of_error settled)] at done
      cases done
    | ok _ last =>
      obtain ⟨_, later, settled', aligned⟩ :=
        simulates_settle between (.cons same.target .nil) _ last settled
      rw [bind_of_ok (attempt_of_ok settled)] at done
      rw [bind_of_ok (attempt_of_ok settled')]
      cases done
      exact ⟨_, later, rfl, aligned⟩

theorem simulates_dereferenceAll (aligned : Aligned meets lands left right)
    {slots slots' : List Slot} (twins : List.Forall₂ (Slot.Twin meets) slots slots') :
    Simulates (dereferenceAll slots) left (dereferenceAll slots') right
      fun _ after _ later => Aligned meets lands after later := by
  induction twins generalizing left right with
  | nil => exact simulates_pure aligned
  | @cons slot slot' slots slots' twin _ ih =>
    intro landed after done
    obtain ⟨_, middle, others, first, rest, rfl⟩ := eq_ok_of_dereferenceAll_cons done
    obtain ⟨found, middle', first', between⟩ := simulates_dereference aligned twin first
    obtain ⟨others', later, rest', aligned⟩ := ih between others after rest
    refine ⟨found :: others', later, ?_, aligned⟩
    rw [dereferenceAll, bind_of_ok first']
    exact bind_of_ok rest'

/-! ## Dumps -/

section

variable {part part' : TypeId → Json}

theorem fieldJson_eq_of_twin {site site' : Site}
    (twin : site.Twin (fun child child' => part child = part' child') site') :
    fieldJson part' site' = fieldJson part site := by
  simp only [fieldJson, useJson, twin.name, twin.doc, twin.qualifiers, twin.target]

theorem slotJsonWith_eq_of_twin {slot slot' : Slot}
    (twin : slot.Twin (fun child child' => part child = part' child') slot') :
    slotJsonWith part' slot' = slotJsonWith part slot := by
  cases twin with
  | bare target => exact target.symm
  | sited twin => simp only [slotJsonWith, useJson, twin.doc, twin.qualifiers, twin.target]

variable {definition definition' : Definition}

theorem inlineJson_eq_of_twin
    (twin : definition.Twin (fun child child' => part child = part' child') definition') :
    inlineJson part' definition' = inlineJson part definition := by
  obtain ⟨shape, doc, annotations⟩ := definition
  obtain ⟨shape', doc', annotations'⟩ := definition'
  obtain ⟨shapes, rfl, rfl⟩ := twin
  cases shapes with
  | list item | reference item =>
    have own := map_eq_of_rel item fun _ _ => slotJsonWith_eq_of_twin
    simp only [inlineJson, own]
  | choice connective alternatives =>
    have own := map_eq_of_forall₂ alternatives fun _ _ => slotJsonWith_eq_of_twin
    cases connective <;> simp only [inlineJson, own]
  | anonymous fields =>
    have own := map_eq_of_forall₂ fields fun _ _ => fieldJson_eq_of_twin
    simp only [inlineJson, own]
  | _ => rfl

theorem fullJson_eq_of_twin
    (twin : definition.Twin (fun child child' => part child = part' child') definition') :
    fullJson part' definition' = fullJson part definition := by
  have inlined := inlineJson_eq_of_twin twin
  have base := twin.base
  have name := twin.name
  obtain ⟨shape, doc, annotations⟩ := definition
  obtain ⟨shape', doc', annotations'⟩ := definition'
  obtain ⟨shapes, rfl, rfl⟩ := twin
  cases shapes with
  | record _ fields =>
    have own := map_eq_of_forall₂ fields fun _ _ => fieldJson_eq_of_twin
    simp only [fullJson, base, name, own]
  | extension _ value =>
    have own := map_eq_of_rel value fun _ _ => slotJsonWith_eq_of_twin
    simp only [fullJson, base, name, own]
  | _ => exact inlined

end

theorem descending_inlineJson (catalog : Catalog) :
    catalog.Descending fun part id => inlineJson part (catalog.definition (catalog.follow id)) :=
  fun _ _ _ same => inlineJson_congr fun unnamed child member => same child ⟨unnamed, member⟩

theorem Nested.typeJson_eq_within {catalog : Catalog} (nested : catalog.Nested)
    (consistent : catalog.Consistent) (id : TypeId) {depth : Nat}
    (enough : catalog.arena.size < depth) :
    catalog.typeJson id = catalog.typeJsonWithin depth id := by
  have bound := nested.height_le consistent id
  exact @Descending.rounds_eq _ _ _ catalog.typeJsonWithin (descending_inlineJson catalog) nested
    consistent (fun _ => rfl) id _ _ (by omega) (by omega)

theorem Nested.onlySolution_typeJson {catalog : Catalog} (nested : catalog.Nested)
    (consistent : catalog.Consistent) :
    OnlySolution (fun part id => inlineJson part (catalog.definition (catalog.follow id)))
      catalog.typeJson :=
  @Descending.onlySolution _ _ _ catalog.typeJsonWithin (descending_inlineJson catalog) nested
    consistent fun _ => rfl

theorem inlineJson_of_isNamed {part : TypeId → Json} {definition : Definition}
    (named : definition.isNamed = true) :
    inlineJson part definition = .object [("$ref", .string definition.name)] := by
  obtain ⟨shape, doc, annotations⟩ := definition
  cases shape with
  | record | extension => rfl
  | _ => cases named

namespace Aligned

theorem typeJsonWithin_eq (aligned : Aligned meets lands left right) (depth : Nat)
    (met : meets one other) :
    left.typeJsonWithin depth one = right.typeJsonWithin depth other := by
  induction depth generalizing one other with
  | zero => rfl
  | succ depth ih =>
    rw [typeJsonWithin, typeJsonWithin]
    cases aligned.pairs met with
    | plain landed _ unforwarded unforwarded' =>
      obtain ⟨_, _, twin⟩ := aligned.twins landed
      rw [follow_of_forward_eq_none unforwarded, follow_of_forward_eq_none unforwarded']
      exact (inlineJson_eq_of_twin (twin.imp fun _ _ => ih)).symm
    | titled names names' leads leads' =>
      have title := leads.follow_names aligned.consistent names
      have title' := leads'.follow_names aligned.consistent' names'
      rw [inlineJson_of_isNamed title.named, inlineJson_of_isNamed title'.named, title.same,
        title'.same]

theorem typeJson_eq (aligned : Aligned meets lands left right) (nested : left.Nested)
    (nested' : right.Nested) (met : meets one other) :
    left.typeJson one = right.typeJson other := by
  -- Both views are deep enough, so that both can be had to the same depth.
  have deep := aligned.typeJsonWithin_eq (left.arena.size + right.arena.size + 1) met
  rwa [← nested.typeJson_eq_within aligned.consistent one (by omega),
    ← nested'.typeJson_eq_within aligned.consistent' other (by omega)] at deep

theorem canonical (aligned : Aligned meets lands left right) (name : String) :
    Option.Rel lands (left.canonical.get? name) (right.canonical.get? name) :=
  OrderedMap.Parallel.get? OrderedMap.biUnique_eq aligned.entries rfl

theorem toJson_eq (aligned : Aligned meets lands left right) (nested : left.Nested)
    (nested' : right.Nested) : right.toJson = left.toJson := by
  rw [toJson, toJson, names, names, aligned.keys]
  refine congrArg Json.object (List.filterMap_congr fun name _ => ?_)
  have found := aligned.canonical (left.resolveAlias name)
  have resolved : right.resolveAlias name = left.resolveAlias name := by
    rw [resolveAlias, aligned.aliases]
    rfl
  rw [canonical?, canonical?, resolved]
  generalize same : left.canonical.get? (left.resolveAlias name) = id at found
  generalize same' : right.canonical.get? (left.resolveAlias name) = id' at found
  cases found with
  | none => rfl
  | @some id id' landed =>
    have views := nested.onlySolution_typeJson aligned.consistent
    have views' := nested'.onlySolution_typeJson aligned.consistent'
    rw [Option.map_some, Option.map_some, views.definitionJson_eq, views'.definitionJson_eq,
      follow_of_forward_eq_none (aligned.consistent.forward_of_canonical same),
      follow_of_forward_eq_none (aligned.consistent'.forward_of_canonical same')]
    obtain ⟨_, _, twin⟩ := aligned.twins landed
    rw [fullJson_eq_of_twin (twin.imp fun _ _ => aligned.typeJson_eq nested nested')]

end Aligned

end DocShapes.Catalog
