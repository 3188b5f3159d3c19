import DocShapes.Catalog.Merge
import DocShapes.Proofs.Enlisting
import DocShapes.Proofs.Headers
import DocShapes.Proofs.Twins

/-! # One text read in two catalogs

A text makes the same definitions in two catalogs that give its names the same kinds of shapes, only
in other places. One of the catalogs may have been told beforehand that a name is an extension; then
the two mentions of the name are of different kinds, and no body may be fed into them. `Compares`
relates two catalogs that are read into side by side.
-/

namespace DocShapes

/-! ## Lines that declare -/

/-- The name whose type would take the body of a declaration of the spec. -/
def Spec.fed? : Spec → Option String
  | .named name => some name
  | .listOf item => item.fed?
  | _ => none

namespace Outline

/-- The name whose type would take the body of the line. -/
def Line.fed? (words : Literal.Words) (line : Line) : Option String :=
  match line.declaration with
  | some (_, spec) =>
      match Spec.readDeclaration words spec with
      | .ok (spec, _) => spec.fed?
      | .error _ => none
  | none =>
      match Spec.read words line.text with
      | .ok spec => spec.fed?
      | .error _ => none

/-- A line of a block, or of the body of such a line. -/
inductive Within (lines : List Line) : Line → Prop
  | top {line : Line} (member : line ∈ lines) : Within lines line
  | inner {outer line : Line} (within : Within lines outer) (member : line ∈ ofLines outer.body) :
      Within lines line

theorem Within.trans {lines : List Line} {outer line : Line} (within : Within lines outer)
    (inside : Within (ofLines outer.body) line) : Within lines line := by
  induction inside with
  | top member => exact .inner within member
  | inner _ member ih => exact .inner ih member

theorem Within.mono {lines more : List Line} {line : Line} (within : Within lines line)
    (subset : lines ⊆ more) : Within more line := by
  induction within with
  | top member => exact .top (subset member)
  | inner _ member ih => exact .inner ih member

end Outline

namespace Catalog

open Outline (Line)

variable {catalog before after left right left' right' : Catalog}

/-! ## Titles -/

/-- The known names are custom names, each with the base that was told of it; a name of which
nothing was told is that of a record. What is unknown has no custom name. -/
structure Titled (told : String → Option Base) (catalog : Catalog) : Prop where
  known : ∀ name id, catalog.known? name = some id → catalog.Holds id ∧
    catalog.customTypes = true ∧ Name.isCustom name = true ∧
      (catalog.definition id).base = (told name).getD .record
  told : ∀ name base, told name = some base → catalog.isKnown name = true
  strange : ∀ id, catalog.Holds id → (catalog.definition id).base = .unknown →
    (catalog.customTypes && Name.isCustom (catalog.resolveAlias (catalog.definition id).name)) =
      false

/-- One more definition, and possibly one more provisional name. -/
structure Adds (before : Catalog) (definition : Definition) (after : Catalog) : Prop where
  arena : after.arena = before.arena.push definition
  words : after.words = before.words
  aliases : after.aliases = before.aliases
  customTypes : after.customTypes = before.customTypes
  pending : after.pending = before.pending

theorem adds_push (catalog : Catalog) (definition : Definition) :
    catalog.Adds definition (catalog.push definition) := ⟨rfl, rfl, rfl, rfl, rfl⟩

theorem Adds.definition_eq {definition : Definition} (adds : before.Adds definition after)
    (id : TypeId) :
    after.definition id = if id = before.next then definition else before.definition id := by
  rw [← definition_push, Catalog.definition, adds.arena]
  rfl

theorem Adds.holds_iff {definition : Definition} (adds : before.Adds definition after)
    (id : TypeId) : after.Holds id ↔ before.Holds id ∨ id = before.next := by
  rw [← holds_push before definition, Holds, adds.arena]
  rfl

section

variable {told : String → Option Base}

theorem Titled.add (titled : before.Titled told) {definition : Definition}
    (adds : before.Adds definition after)
    (known : ∀ name id, after.known? name = some id → before.known? name = some id ∨
      id = before.next ∧ before.customTypes = true ∧ Name.isCustom name = true ∧
        definition.base = (told name).getD .record)
    (kept : ∀ name, before.isKnown name = true → after.isKnown name = true)
    (strange : definition.base = .unknown →
      (before.customTypes && Name.isCustom (before.resolveAlias definition.name)) = false) :
    after.Titled told where
  known name id found := by
    rw [adds.definition_eq, adds.customTypes, adds.holds_iff]
    rcases known name id found with old | ⟨rfl, custom⟩
    · obtain ⟨held, own⟩ := titled.known name id old
      rw [if_neg (ne_next_of_holds held)]
      exact ⟨.inl held, own⟩
    · rw [if_pos rfl]
      exact ⟨.inr rfl, custom⟩
  told name base same := kept name (titled.told name base same)
  strange id held := by
    rw [adds.definition_eq, adds.customTypes, resolveAlias, adds.aliases, ← resolveAlias]
    split
    · exact strange
    · rename_i different
      exact titled.strange id (((adds.holds_iff id).mp held).resolve_right different)

theorem Titled.push (titled : catalog.Titled told) {definition : Definition}
    (strange : definition.base = .unknown →
      (catalog.customTypes && Name.isCustom (catalog.resolveAlias definition.name)) = false) :
    (catalog.push definition).Titled told :=
  titled.add (adds_push catalog definition) (fun _ _ found => .inl found) (fun _ known => known)
    strange

theorem Titled.put (titled : catalog.Titled told) {id : TypeId} {definition : Definition}
    (base : definition.base = (catalog.definition id).base)
    (name : definition.name = (catalog.definition id).name) :
    (catalog.put id definition).Titled told := by
  have bases (other : TypeId) : ((catalog.put id definition).definition other).base =
      (catalog.definition other).base := by
    rw [definition_put]
    split
    · rename_i same
      rw [base, same.1]
    · rfl
  have names (other : TypeId) : ((catalog.put id definition).definition other).name =
      (catalog.definition other).name := by
    rw [definition_put]
    split
    · rename_i same
      rw [name, same.1]
    · rfl
  refine ⟨fun name other found => ?_, titled.told, fun other held => ?_⟩
  · rw [bases, holds_put]
    exact titled.known name other found
  · rw [bases, names]
    exact titled.strange other ((holds_put _ _ _ _).mp held)

theorem Titled.of_arena (titled : before.Titled told) (arena : after.arena = before.arena)
    (known : ∀ name, after.known? name = before.known? name)
    (aliases : after.aliases = before.aliases)
    (customTypes : after.customTypes = before.customTypes) : after.Titled told := by
  have same (id : TypeId) : after.definition id = before.definition id := by
    rw [Catalog.definition, Catalog.definition, arena]
  refine ⟨fun name id found => ?_, fun name base own => ?_, fun id held => ?_⟩
  · rw [same, customTypes, Holds, arena]
    exact titled.known name id (known name ▸ found)
  · rw [isKnown, known, ← isKnown]
    exact titled.told name base own
  · rw [same, customTypes, resolveAlias, aliases, ← resolveAlias]
    rw [Holds, arena] at held
    exact titled.strange id held

@[simp] theorem name_shellOf (base : Base) (name : String) : (shellOf base name).name = name := by
  rw [shellOf]
  split <;> rfl

@[simp] theorem isNamed_shellOf (base : Base) (name : String) :
    (shellOf base name).isNamed = true := by
  rw [shellOf]
  split <;> rfl

@[simp] theorem isShell_shellOf (base : Base) (name : String) :
    (shellOf base name).isShell = true := by
  rw [shellOf]
  split <;> rfl

@[simp] theorem children_shellOf (base : Base) (name : String) :
    (shellOf base name).shape.children = [] := by
  rw [shellOf]
  split <;> rfl

/-- What a mention of a name is in a titled catalog. -/
def titleOf (told : String → Option Base) (catalog : Catalog) (name : String) : Definition :=
  if catalog.customTypes && Name.isCustom name then shellOf ((told name).getD .record) name
  else .ofShape (.unknown name)

/-- A new custom name is provided by the record that is made for it. -/
theorem Titled.provide (titled : catalog.Titled told) {name : String}
    (unknown : catalog.isKnown name = false) (untold : told name = none)
    (customTypes : catalog.customTypes = true) (custom : Name.isCustom name = true) :
    ((catalog.push (.ofShape (.record name []))).provide name catalog.next).Titled told := by
  have free : (catalog.push (.ofShape (.record name []))).canonical.get? name = none :=
    not_canonical_of_not_isKnown unknown
  have adds : catalog.Adds (.ofShape (.record name []))
      ((catalog.push (.ofShape (.record name []))).provide name catalog.next) :=
    ⟨rfl, rfl, rfl, rfl, rfl⟩
  refine titled.add adds (fun other id found => ?_) (fun other known => ?_)
    fun unknown => by cases unknown
  · rw [known?_provide free] at found
    split at found
    · rename_i same
      cases found
      subst same
      exact .inr ⟨rfl, customTypes, custom, by rw [untold]; rfl⟩
    · exact .inl found
  · obtain ⟨id, found⟩ := (isKnown_iff _ _).mp known
    refine (isKnown_iff _ _).mpr ?_
    rw [known?_provide free]
    split
    · exact ⟨_, rfl⟩
    · exact ⟨id, found⟩

theorem elaborateName_eq_of_custom {name : String} (plain : Name.keyword? name = none)
    (unknown : catalog.known? name = none)
    (custom : (catalog.customTypes && Name.isCustom name) = true) :
    elaborateName name catalog = .ok catalog.next
      ((catalog.push (.ofShape (.record name []))).provide name catalog.next) := by
  rw [elaborateName, get_bind, meaning, plain, unknown]
  simp only [custom]
  have still : (catalog.push (.ofShape (.record name []))).isKnown name = false := by
    rw [isKnown]
    exact congrArg Option.isSome unknown
  have ensured : ensureProvisional name catalog.next (catalog.push (.ofShape (.record name []))) =
      .ok () ((catalog.push (.ofShape (.record name []))).provide name catalog.next) := by
    rw [ensureProvisional, get_bind, still]
    rfl
  have finished : (ensureProvisional name catalog.next >>= fun _ => pure catalog.next)
      (catalog.push (.ofShape (.record name []))) = .ok catalog.next
        ((catalog.push (.ofShape (.record name []))).provide name catalog.next) :=
    bind_of_ok ensured
  exact finished

theorem Titled.elaborateName_eq (titled : catalog.Titled told) {name : String}
    (plain : Name.keyword? name = none) (resolved : catalog.resolveAlias name = name) :
    ∃ after, elaborateName name catalog = .ok catalog.next after ∧
      catalog.Adds (titleOf told catalog name) after ∧ after.Titled told := by
  cases known : catalog.known? name with
  | some id =>
    obtain ⟨held, customTypes, custom, base⟩ := titled.known name id known
    have own : titleOf told catalog name = shellOf ((told name).getD .record) name := by
      simp [titleOf, customTypes, custom]
    have pushed : (catalog.push (titleOf told catalog name)).Titled told := titled.push (by
      rw [own, shellOf]
      intro unknown
      split at unknown <;> cases unknown)
    refine ⟨_, ?_, adds_push catalog _, pushed⟩
    have meaning : catalog.meaning name = .registered ((told name).getD .record) := by
      rw [meaning, plain, known]
      exact congrArg Meaning.registered base
    rw [elaborateName, get_bind, meaning, own]
    cases (told name).getD .record <;> rfl
  | none =>
    have unknown : catalog.isKnown name = false := by rw [isKnown, known]; rfl
    cases custom : (catalog.customTypes && Name.isCustom name) with
    | false =>
      have own : titleOf told catalog name = .ofShape (.unknown name) := by
        rw [titleOf, custom]
        rfl
      refine ⟨_, ?_, adds_push catalog _, titled.push fun _ => ?_⟩
      · rw [elaborateName, get_bind, meaning, plain, known, own]
        simp only [custom]
        rfl
      · rw [own]
        exact (congrArg (fun word => catalog.customTypes && Name.isCustom word) resolved).trans
          custom
    | true =>
      have untold : told name = none := by
        cases own : told name with
        | none => rfl
        | some base =>
          have known := titled.told name base own
          rw [unknown] at known
          cases known
      have own : titleOf told catalog name = .ofShape (.record name []) := by
        rw [titleOf, custom, untold]
        rfl
      obtain ⟨customTypes, named⟩ := Bool.and_eq_true_iff.mp custom
      exact ⟨_, elaborateName_eq_of_custom plain known custom, own ▸ ⟨rfl, rfl, rfl, rfl, rfl⟩,
        titled.provide unknown untold customTypes named⟩

end

/-! ## Readings side by side -/

/-- Two readings of one text. -/
structure Comparison where
  /-- The number of definitions of the first catalog before the reading. -/
  left : Nat
  /-- The number of definitions of the second catalog before the reading. -/
  right : Nat
  /-- The bases of names that only the first catalog knows. -/
  told : String → Option Base
  words : Literal.Words
  /-- What is staged is compared as well. -/
  staging : Bool

variable {comparison : Comparison}

namespace Comparison

/-- The ids are equally far behind those from before the readings. -/
structure Links (comparison : Comparison) (one other : TypeId) : Prop where
  left : comparison.left ≤ one.index
  right : comparison.right ≤ other.index
  equal : one.index + comparison.right = other.index + comparison.left

theorem biUnique_links (comparison : Comparison) : Relator.BiUnique comparison.Links := by
  constructor
  · rintro ⟨first⟩ ⟨second⟩ ⟨other⟩ ⟨_, _, same⟩ ⟨_, _, same'⟩
    simp only [TypeId.mk.injEq] at same same' ⊢
    omega
  · rintro ⟨one⟩ ⟨first⟩ ⟨second⟩ ⟨_, _, same⟩ ⟨_, _, same'⟩
    simp only [TypeId.mk.injEq] at same same' ⊢
    omega

/-- The same definition, which is a record if it has a name; for a name that has been told to the
first catalog, empty mentions. -/
inductive Resembles (comparison : Comparison) : Definition → Definition → Prop
  | twin {one other : Definition} (twin : one.Twin comparison.Links other)
      (plain : one.annotations = .empty)
      (untold : one.isNamed = true → comparison.told one.name = none ∧ one.base = .record) :
      Resembles comparison one other
  | mention {name : String} {base : Base} (told : comparison.told name = some base) :
      Resembles comparison (shellOf base name) (shellOf .record name)

namespace Resembles

variable {one other : Definition}

theorem name (resembles : comparison.Resembles one other) : other.name = one.name := by
  cases resembles with
  | twin twin => exact twin.name
  | mention => rw [name_shellOf, name_shellOf]

theorem isNamed (resembles : comparison.Resembles one other) : other.isNamed = one.isNamed := by
  cases resembles with
  | twin twin => exact twin.isNamed
  | mention => rw [isNamed_shellOf, isNamed_shellOf]

theorem children (resembles : comparison.Resembles one other) :
    List.Forall₂ comparison.Links one.shape.children other.shape.children := by
  cases resembles with
  | twin twin => exact twin.shape.children
  | mention =>
    rw [children_shellOf, children_shellOf]
    exact .nil

theorem toTwin (resembles : comparison.Resembles one other)
    (untold : one.isNamed = true → comparison.told one.name = none) :
    one.Twin comparison.Links other ∧ one.annotations = .empty ∧
      (one.isNamed = true → one.base = .record) := by
  cases resembles with
  | twin twin plain own => exact ⟨twin, plain, fun named => (own named).2⟩
  | mention told =>
    have absent := untold (isNamed_shellOf _ _)
    rw [name_shellOf, told] at absent
    cases absent

end Resembles

theorem resembles_ofShape {one other : Shape} (twin : one.Twin comparison.Links other)
    (unnamed : one.isNamed = false) :
    comparison.Resembles (.ofShape one) (.ofShape other) :=
  .twin (Definition.twin_ofShape twin) rfl fun named => by
    rw [show (Definition.ofShape one).isNamed = one.isNamed from rfl, unnamed] at named
    cases named

end Comparison

/-- The two catalogs are read into side by side: what they have got since then is the same. -/
structure Compares (comparison : Comparison) (left right : Catalog) : Prop where
  start : comparison.left ≤ left.arena.size
  size : left.arena.size + comparison.right = right.arena.size + comparison.left
  words : left.words = comparison.words
  words' : right.words = comparison.words
  flat : comparison.words.aliases.Flat
  customTypes : right.customTypes = left.customTypes
  titled : left.Titled comparison.told
  titled' : right.Titled fun _ => none
  definitions : ∀ {one other}, comparison.Links one other → left.Holds one →
    comparison.Resembles (left.definition one) (right.definition other)
  pending : comparison.staging = true →
    left.pending.Parallel Eq (List.Forall₂ (Declaration.Linked comparison.Links)) right.pending

namespace Compares

theorem aliases (compares : Compares comparison left right) :
    left.aliases = comparison.words.aliases :=
  congrArg Literal.Words.aliases compares.words

theorem aliases' (compares : Compares comparison left right) :
    right.aliases = comparison.words.aliases :=
  congrArg Literal.Words.aliases compares.words'

theorem links_next (compares : Compares comparison left right) :
    comparison.Links left.next right.next := by
  have size := compares.size
  have start := compares.start
  refine ⟨start, ?_, size⟩
  change comparison.right ≤ right.arena.size
  omega

theorem holds (compares : Compares comparison left right) {one other : TypeId}
    (links : comparison.Links one other) : left.Holds one ↔ right.Holds other := by
  have size := compares.size
  obtain ⟨_, _, same⟩ := links
  change one.index < left.arena.size ↔ other.index < right.arena.size
  omega

theorem add (compares : Compares comparison left right) {one other : Definition}
    (adds : left.Adds one left') (adds' : right.Adds other right')
    (titled : left'.Titled comparison.told) (titled' : right'.Titled fun _ => none)
    (resembles : comparison.Resembles one other) : Compares comparison left' right' where
  start := by
    have start := compares.start
    rw [adds.arena, Array.size_push]
    omega
  size := by
    have size := compares.size
    rw [adds.arena, adds'.arena, Array.size_push, Array.size_push]
    omega
  words := adds.words.trans compares.words
  words' := adds'.words.trans compares.words'
  flat := compares.flat
  customTypes := by rw [adds.customTypes, adds'.customTypes, compares.customTypes]
  titled := titled
  titled' := titled'
  definitions {first second} links held := by
    have own : first = left.next ↔ second = right.next :=
      Relator.rel_eq comparison.biUnique_links links compares.links_next
    rw [adds.definition_eq, adds'.definition_eq]
    by_cases here : first = left.next
    · rw [if_pos here, if_pos (own.mp here)]
      exact resembles
    · rw [if_neg here, if_neg (mt own.mpr here)]
      exact compares.definitions links (((adds.holds_iff first).mp held).resolve_right here)
  pending staging := by
    rw [adds.pending, adds'.pending]
    exact compares.pending staging

theorem put (compares : Compares comparison left right) {one other : TypeId}
    (links : comparison.Links one other) {definition definition' : Definition}
    (resembles : comparison.Resembles definition definition')
    (base : definition.base = (left.definition one).base)
    (base' : definition'.base = (right.definition other).base)
    (name : definition.name = (left.definition one).name)
    (name' : definition'.name = (right.definition other).name) :
    Compares comparison (left.put one definition) (right.put other definition') where
  start := by
    rw [put_arena, Array.size_setIfInBounds]
    exact compares.start
  size := by
    rw [put_arena, put_arena, Array.size_setIfInBounds, Array.size_setIfInBounds]
    exact compares.size
  words := compares.words
  words' := compares.words'
  flat := compares.flat
  customTypes := compares.customTypes
  titled := compares.titled.put base name
  titled' := compares.titled'.put base' name'
  definitions {first second} reached held := by
    have own : first = one ↔ second = other :=
      Relator.rel_eq comparison.biUnique_links reached links
    rw [holds_put] at held
    rw [definition_put, definition_put]
    by_cases here : first = one
    · have there := own.mp here
      subst here
      subst there
      rw [if_pos ⟨rfl, held⟩, if_pos ⟨rfl, (compares.holds links).mp held⟩]
      exact resembles
    · rw [if_neg fun same => here same.1, if_neg fun same => here (own.mpr same.1)]
      exact compares.definitions reached held
  pending := compares.pending

theorem shape_twin (compares : Compares comparison left right) {one other : TypeId}
    (links : comparison.Links one other) (held : left.Holds one)
    (untold : (left.definition one).isNamed = true →
      comparison.told (left.definition one).name = none) :
    (left.definition one).Twin comparison.Links (right.definition other) :=
  ((compares.definitions links held).toTwin untold).1

end Compares

/-! ## Types -/

theorem simulates_allocate (compares : Compares comparison left right) {one other : Shape}
    (twin : one.Twin comparison.Links other) (unnamed : one.isNamed = false)
    (familiar : one.base ≠ .unknown) :
    Simulates (allocate (.ofShape one)) left (allocate (.ofShape other)) right
      fun id after id' later => comparison.Links id id' ∧ Compares comparison after later := by
  intro id after done
  cases done
  refine ⟨right.next, right.push (.ofShape other), rfl, compares.links_next, ?_⟩
  refine compares.add (adds_push _ _) (adds_push _ _) (compares.titled.push fun unknown => ?_)
    (compares.titled'.push fun unknown => ?_) (Comparison.resembles_ofShape twin unnamed)
  · exact absurd unknown familiar
  · exact absurd (twin.base.symm.trans unknown) familiar

theorem simulates_elaborateName (compares : Compares comparison left right) {name : String}
    (plain : Name.keyword? name = none) (resolved : comparison.words.aliases.resolve name = name) :
    Simulates (elaborateName name) left (elaborateName name) right
      fun id after id' later => comparison.Links id id' ∧ Compares comparison after later := by
  obtain ⟨after, made, adds, titled⟩ := compares.titled.elaborateName_eq plain
    (by rw [resolveAlias, compares.aliases, resolved])
  obtain ⟨later, made', adds', titled'⟩ := compares.titled'.elaborateName_eq plain
    (by rw [resolveAlias, compares.aliases', resolved])
  intro id state done
  rw [made] at done
  cases done
  refine ⟨right.next, later, made', compares.links_next,
    compares.add adds adds' titled titled' ?_⟩
  rw [titleOf, titleOf, compares.customTypes]
  split
  · cases told : comparison.told name with
    | none =>
      exact .twin (Definition.twin_ofShape (.record name .nil)) rfl fun _ => ⟨told, rfl⟩
    | some base => exact .mention told
  · exact Comparison.resembles_ofShape (.unknown name) rfl

theorem simulates_elaborateEach {specs : List Spec}
    (each : ∀ spec ∈ specs, ∀ {left right : Catalog}, Compares comparison left right →
      spec.Canonical comparison.words.aliases →
        Simulates (elaborate spec) left (elaborate spec) right
          fun id after id' later => comparison.Links id id' ∧ Compares comparison after later)
    (compares : Compares comparison left right)
    (canonical : ∀ spec ∈ specs, spec.Canonical comparison.words.aliases) :
    Simulates (elaborate.elaborateEach specs) left (elaborate.elaborateEach specs) right
      fun ids after ids' later =>
        List.Forall₂ comparison.Links ids ids' ∧ Compares comparison after later := by
  induction specs generalizing left right with
  | nil => exact simulates_pure ⟨.nil, compares⟩
  | cons spec rest ih =>
    obtain ⟨first, others⟩ := List.forall_mem_cons.mp each
    obtain ⟨own, further⟩ := List.forall_mem_cons.mp canonical
    rw [elaborate.elaborateEach]
    refine (first compares own).bind fun _ _ _ _ _ _ made => ?_
    refine (ih others made.2 further).bind fun _ _ _ _ _ _ more => ?_
    exact simulates_pure ⟨.cons made.1 more.1, more.2⟩

theorem simulates_elaborate (spec : Spec) :
    ∀ {left right : Catalog}, Compares comparison left right →
      spec.Canonical comparison.words.aliases →
        Simulates (elaborate spec) left (elaborate spec) right
          fun id after id' later => comparison.Links id id' ∧ Compares comparison after later := by
  induction spec using Spec.induction with
  | step spec ih =>
    intro left right compares canonical
    cases spec with
    | scalar name => exact simulates_allocate compares (.scalar name) rfl (by simp [Shape.base])
    | constant value =>
      exact simulates_allocate compares (.constant value) rfl (by simp [Shape.base])
    | named name =>
      obtain ⟨plain, word, _, rfl⟩ := canonical
      exact simulates_elaborateName compares plain (compares.flat.resolve_resolve word)
    | list => exact simulates_allocate compares (.list .none) rfl (by simp [Shape.base])
    | listOf item =>
      rw [elaborate]
      refine (ih item List.mem_cons_self compares canonical).bind fun _ _ _ _ _ _ made => ?_
      exact simulates_allocate made.2 (.list (.some (.bare made.1))) rfl (by simp [Shape.base])
    | reference => exact simulates_allocate compares (.reference .none) rfl (by simp [Shape.base])
    | referenceTo target =>
      rw [elaborate]
      refine (ih target List.mem_cons_self compares canonical).bind fun _ _ _ _ _ _ made => ?_
      exact simulates_allocate made.2 (.reference (.some (.bare made.1))) rfl
        (by simp [Shape.base])
    | record => exact simulates_allocate compares (.anonymous .nil) rfl (by simp [Shape.base])
    | sequence connective items =>
      rw [elaborate]
      refine (simulates_elaborateEach ih compares
        (Spec.canonical_each_iff.mp canonical.2)).bind fun _ _ _ _ _ _ made => ?_
      exact simulates_allocate made.2
        (.choice connective (List.rel_map (fun _ _ target => .bare target) made.1)) rfl
        (by simp [Shape.base])

end Catalog

end DocShapes
