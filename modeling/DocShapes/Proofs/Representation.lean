import DocShapes.Proofs.Elaboration
import DocShapes.Proofs.SpecText
import Mathlib.Data.List.Forall2

/-! # Specs in a catalog

The definitions that a spec makes stand for it as a tree: each node has a definition of its own,
behind the definitions of its parts. They go on standing for it as long as the catalog keeps them
and gives names the same shapes.
-/

namespace DocShapes

/-! ## Parts of specs -/

namespace Spec

/-- The specs that a spec is made of. -/
def parts : Spec → List Spec
  | .listOf item => [item]
  | .referenceTo target => [target]
  | .sequence _ items => items
  | _ => []

/-- What holds of a spec if it holds of its parts holds of every spec. -/
theorem induction {motive : Spec → Prop}
    (step : ∀ spec : Spec, (∀ part ∈ spec.parts, motive part) → motive spec) (spec : Spec) :
    motive spec := by
  refine @Spec.rec motive (fun items => ∀ item ∈ items, motive item)
    (fun name => step _ ?_) (fun value => step _ ?_) (fun name => step _ ?_) (step _ ?_)
    (fun item ih => step _ ?_) (step _ ?_) (fun target ih => step _ ?_) (step _ ?_)
    (fun connective items ih => step _ ih) ?_ ?_ spec
  · simp [parts]
  · simp [parts]
  · simp [parts]
  · simp [parts]
  · simpa [parts] using ih
  · simp [parts]
  · simpa [parts] using ih
  · simp [parts]
  · simp
  · intro first rest here others
    exact List.forall_mem_cons.mpr ⟨here, others⟩

theorem Written.part {spec part : Spec} (written : spec.Written) (member : part ∈ spec.parts) :
    part.Written := by
  cases written with
  | listOf item =>
    rw [List.mem_singleton.mp member]
    exact item
  | referenceTo target =>
    rw [List.mem_singleton.mp member]
    exact target
  | sequence several each => exact each part member
  | _ => cases member

end Spec

namespace Catalog

variable {catalog before after : Catalog}

/-! ## Mentions of names -/

/-- The shape that a name has where a spec mentions it. -/
def mention (catalog : Catalog) (name : String) : Shape :=
  match catalog.meaning name with
  | .registered .extension => .extension name none
  | .registered _ => .record name []
  | .custom => .record name []
  | _ => .unknown name

theorem name_mention (catalog : Catalog) (name : String) : (catalog.mention name).name = name := by
  unfold mention
  split <;> rfl

theorem slots_mention (catalog : Catalog) (name : String) : (catalog.mention name).slots = [] := by
  unfold mention
  split <;> rfl

theorem Consistent.mention_push (consistent : catalog.Consistent) (definition : Definition)
    (name : String) : (catalog.push definition).mention name = catalog.mention name := by
  have same : (catalog.push definition).meaning name = catalog.meaning name := by
    simp only [meaning, known?_push]
    cases known : catalog.known? name with
    | none => rfl
    | some id =>
      have old := ne_next_of_holds (consistent.owned name id known).held
      simp only [Catalog.shape, definition_push, if_neg old]
  rw [mention, same, ← mention]

/-- A custom name has the same shape where it is known already. -/
theorem Consistent.mention_provide (consistent : catalog.Consistent) {name : String}
    (custom : catalog.meaning name = .custom) (other : String) :
    ((catalog.push (.ofShape (.record name []))).provide name catalog.next).mention other =
      catalog.mention other := by
  have unknown := not_isKnown_of_meaning_custom custom
  have free : (catalog.push (.ofShape (.record name []))).canonical.get? name = none :=
    not_canonical_of_not_isKnown unknown
  by_cases same : name = other
  · subst same
    have plain : Name.keyword? name = none := by
      cases keyword : Name.keyword? name with
      | none => rfl
      | some => simp [meaning, keyword] at custom
    have known : ((catalog.push (.ofShape (.record name []))).provide name catalog.next).meaning
        name = .registered .record := by
      simp only [meaning, plain, known?_provide free, if_true, Catalog.shape, definition_provide,
        definition_push]
      rfl
    rw [mention, known, mention, custom]
  · rw [← consistent.mention_push (.ofShape (.record name [])) other]
    simp only [mention, meaning, known?_provide free, if_neg same, Catalog.shape,
      definition_provide]
    rfl

/-! ## Catalogs that keep definitions -/

/-- The second catalog has the definitions of the first one, and gives names the same shapes. -/
structure Keeps (before after : Catalog) : Prop where
  size_le : before.arena.size ≤ after.arena.size
  definition_eq : ∀ id, before.Holds id → after.definition id = before.definition id
  forward : after.forward = before.forward
  aliases : after.aliases = before.aliases
  mention_eq : ∀ name, after.mention name = before.mention name

theorem Keeps.refl (catalog : Catalog) : catalog.Keeps catalog where
  size_le := Nat.le_refl _
  definition_eq _ _ := rfl
  forward := rfl
  aliases := rfl
  mention_eq _ := rfl

theorem Keeps.trans {middle : Catalog} (left : before.Keeps middle) (right : middle.Keeps after) :
    before.Keeps after where
  size_le := Nat.le_trans left.size_le right.size_le
  definition_eq id held :=
    (right.definition_eq id (Nat.lt_of_lt_of_le held left.size_le)).trans
      (left.definition_eq id held)
  forward := right.forward.trans left.forward
  aliases := right.aliases.trans left.aliases
  mention_eq name := (right.mention_eq name).trans (left.mention_eq name)

theorem Consistent.keeps_push (consistent : catalog.Consistent) (definition : Definition) :
    catalog.Keeps (catalog.push definition) where
  size_le := by simp
  definition_eq id held := by rw [definition_push, if_neg (ne_next_of_holds held)]
  forward := rfl
  aliases := rfl
  mention_eq := consistent.mention_push definition

theorem Consistent.keeps_provide (consistent : catalog.Consistent) {name : String}
    (custom : catalog.meaning name = .custom) :
    catalog.Keeps ((catalog.push (.ofShape (.record name []))).provide name catalog.next) where
  size_le := by simp
  definition_eq id held := by
    rw [definition_provide, definition_push, if_neg (ne_next_of_holds held)]
  forward := rfl
  aliases := rfl
  mention_eq := consistent.mention_provide custom

/-- Nothing has been retired to the id that comes next. -/
theorem Consistent.forward_next (consistent : catalog.Consistent) :
    catalog.forward.get? catalog.next = none := by
  cases found : catalog.forward.get? catalog.next with
  | none => rfl
  | some landing => exact absurd (consistent.retired _ _ found).1 (not_holds_next catalog)

/-! ## Standing for a spec -/

/-- The shape of a spec whose parts have the given definitions. -/
def shapeOf (catalog : Catalog) : Spec → List TypeId → Shape
  | .scalar name, _ => .scalar name
  | .constant value, _ => .constant value
  | .named name, _ => catalog.mention name
  | .list, _ => .list none
  | .listOf _, ids => .list (ids.head?.map .bare)
  | .reference, _ => .reference none
  | .referenceTo _, ids => .reference (ids.head?.map .bare)
  | .record, _ => .anonymous []
  | .sequence connective _, ids => .choice connective (ids.map .bare)

theorem Keeps.shapeOf_eq (keeps : before.Keeps after) (spec : Spec) (ids : List TypeId) :
    after.shapeOf spec ids = before.shapeOf spec ids := by
  cases spec with
  | named name => exact keeps.mention_eq name
  | _ => rfl

theorem name_shapeOf (spec : Spec) (ids : List TypeId) :
    (catalog.shapeOf spec ids).name = spec.word := by
  cases spec with
  | named name => exact name_mention catalog name
  | _ => rfl

theorem slots_shapeOf {spec : Spec} {ids : List TypeId} (count : spec.parts.length = ids.length) :
    (catalog.shapeOf spec ids).slots = ids.map .bare := by
  have empty (none : spec.parts = []) : ids = [] := by
    rw [none] at count
    exact List.length_eq_zero_iff.mp count.symm
  cases spec with
  | named name => rw [empty rfl]; exact slots_mention catalog name
  | listOf item =>
    obtain ⟨id, rfl⟩ := List.length_eq_one_iff.mp count.symm
    rfl
  | referenceTo target =>
    obtain ⟨id, rfl⟩ := List.length_eq_one_iff.mp count.symm
    rfl
  | sequence => rfl
  | _ => rw [empty rfl]; rfl

/-- The definition of the id stands for the spec, and its parts stand for the parts. -/
inductive Represents (catalog : Catalog) : Spec → TypeId → Prop
  | node {spec : Spec} {id : TypeId} {ids : List TypeId}
      (held : catalog.Holds id)
      (definition : catalog.definition id = .ofShape (catalog.shapeOf spec ids))
      (standing : catalog.forward.get? id = none)
      (earlier : ∀ child ∈ ids, child.index < id.index)
      (count : spec.parts.length = ids.length)
      (parts : ∀ {part child}, (part, child) ∈ spec.parts.zip ids →
        Represents catalog part child) :
      Represents catalog spec id

theorem Represents.held {spec : Spec} {id : TypeId} (represents : catalog.Represents spec id) :
    catalog.Holds id := by
  cases represents
  assumption

theorem holds_of_represents {specs : List Spec} {ids : List TypeId}
    (represents : List.Forall₂ catalog.Represents specs ids) : ∀ id ∈ ids, catalog.Holds id := by
  induction represents with
  | nil => simp
  | cons first _ ih => exact List.forall_mem_cons.mpr ⟨first.held, ih⟩

theorem Represents.kept {spec : Spec} {id : TypeId} (represents : before.Represents spec id)
    (keeps : before.Keeps after) : after.Represents spec id := by
  induction represents with
  | @node spec id ids held definition standing earlier count parts ih =>
    refine .node (Nat.lt_of_lt_of_le held keeps.size_le) ?_ ?_ earlier count ih
    · rw [keeps.definition_eq id held, definition, keeps.shapeOf_eq]
    · rw [keeps.forward, standing]

theorem Consistent.represents_push (consistent : catalog.Consistent) {spec : Spec}
    {ids : List TypeId} (parts : List.Forall₂ catalog.Represents spec.parts ids) :
    (catalog.push (.ofShape (catalog.shapeOf spec ids))).Represents spec catalog.next := by
  have keeps := consistent.keeps_push (.ofShape (catalog.shapeOf spec ids))
  obtain ⟨count, each⟩ := List.forall₂_iff_zip.mp parts
  refine .node (by simp) ?_ consistent.forward_next (fun child member => ?_) count
    fun member => (each member).kept keeps
  · rw [definition_push, if_pos rfl, keeps.shapeOf_eq]
  · exact holds_of_represents parts child member

/-- The first definition of a custom name stands for the name. -/
theorem Consistent.represents_provide (consistent : catalog.Consistent) {name : String}
    (custom : catalog.meaning name = .custom) :
    ((catalog.push (.ofShape (.record name []))).provide name catalog.next).Represents
      (.named name) catalog.next := by
  have keeps := consistent.keeps_provide custom
  have held : ((catalog.push (.ofShape (.record name []))).provide name catalog.next).Holds
      catalog.next := by simp
  refine @Represents.node _ (.named name) _ [] held ?_ consistent.forward_next (by simp) rfl
    (by simp [Spec.parts])
  rw [keeps.shapeOf_eq, shapeOf, mention, custom, definition_provide, definition_push, if_pos rfl]

/-! ## Elaborated specs -/

/-- What comes into being for the spec stands for it. -/
def Elaborates (spec : Spec) : Prop :=
  ∀ catalog : Catalog, catalog.Consistent → spec.Canonical catalog.aliases →
    Ends (elaborate spec) catalog
      (fun id after => catalog.Keeps after ∧ after.Represents spec id) fun _ => False

theorem Elaborates.ends {spec : Spec} (elaborates : Elaborates spec)
    (consistent : catalog.Consistent) (canonical : spec.Canonical catalog.aliases) :
    Ends (elaborate spec) catalog
      (fun id after => after.Consistent ∧ catalog.Keeps after ∧ after.Represents spec id)
      fun _ => False := by
  have grows := ends_elaborate spec (Nat.le_refl _) canonical
  refine (grows.and (elaborates catalog consistent canonical)).mono ?_ fun _ ended => ended.1
  rintro id after ⟨⟨growth, _⟩, made⟩
  exact ⟨growth.consistent consistent, made⟩

/-- One more definition, made of what stands for the parts of a spec. -/
theorem Keeps.ends_allocate (keeps : before.Keeps catalog) (consistent : catalog.Consistent)
    {spec : Spec} {ids : List TypeId} (parts : List.Forall₂ catalog.Represents spec.parts ids) :
    Ends (allocate (.ofShape (catalog.shapeOf spec ids))) catalog
      (fun id after => before.Keeps after ∧ after.Represents spec id) fun _ => False := by
  rw [Catalog.ends_allocate]
  exact ⟨keeps.trans (consistent.keeps_push _), consistent.represents_push parts⟩

theorem ends_elaborateName_represents (consistent : catalog.Consistent) (name : String) :
    Ends (elaborateName name) catalog
      (fun id after => catalog.Keeps after ∧ after.Represents (.named name) id)
      fun _ => False := by
  have plain : Ends (allocate (.ofShape (catalog.mention name))) catalog
      (fun id after => catalog.Keeps after ∧ after.Represents (.named name) id)
      fun _ => False :=
    @Keeps.ends_allocate _ _ (.refl catalog) consistent (.named name) [] .nil
  simp only [elaborateName, ends_bind, ends_get]
  cases meaning : catalog.meaning name with
  | keyword => simpa only [mention, meaning] using plain
  | registered base => cases base <;> simpa only [mention, meaning] using plain
  | unknown => simpa only [mention, meaning] using plain
  | custom =>
    have unknown := not_isKnown_of_meaning_custom meaning
    have keeps := consistent.keeps_provide meaning
    have represents := consistent.represents_provide meaning
    simp only [ends_bind, Catalog.ends_allocate, ensureProvisional, ends_get, ends_pure,
      setProvisional]
    simp only [isKnown, known?_push] at unknown ⊢
    simp only [unknown, Bool.false_eq_true, if_false, ends_modify]
    exact ⟨keeps, represents⟩

theorem ends_elaborateEach_represents {items : List Spec}
    (each : ∀ item ∈ items, Elaborates item) (consistent : catalog.Consistent)
    (canonical : ∀ item ∈ items, item.Canonical catalog.aliases) :
    Ends (elaborate.elaborateEach items) catalog
      (fun ids after => after.Consistent ∧ catalog.Keeps after ∧
        List.Forall₂ after.Represents items ids)
      fun _ => False := by
  induction items generalizing catalog with
  | nil => exact ⟨consistent, .refl catalog, .nil⟩
  | cons item rest ih =>
    obtain ⟨itemElaborates, restElaborate⟩ := List.forall_mem_cons.mp each
    obtain ⟨itemCanonical, restCanonical⟩ := List.forall_mem_cons.mp canonical
    rw [elaborate.elaborateEach, ends_bind]
    refine (itemElaborates.ends consistent itemCanonical).imp ?_
    intro first middle ⟨sound, keeps, represents⟩
    rw [ends_bind]
    rw [← keeps.aliases] at restCanonical
    refine (ih restElaborate sound restCanonical).imp ?_
    intro others after ⟨sound, further, represented⟩
    exact ⟨sound, keeps.trans further, .cons (represents.kept further) represented⟩

/-- Every canonical spec gets definitions that stand for it. -/
theorem elaborates (spec : Spec) : Elaborates spec := by
  induction spec using Spec.induction with
  | step spec ih =>
    intro catalog consistent canonical
    have leaf (none : spec.parts = []) :
        Ends (allocate (.ofShape (catalog.shapeOf spec []))) catalog
          (fun id after => catalog.Keeps after ∧ after.Represents spec id) fun _ => False :=
      (Keeps.refl catalog).ends_allocate consistent (by rw [none]; exact .nil)
    cases spec with
    | named name => exact ends_elaborateName_represents consistent name
    | listOf item =>
      rw [elaborate, ends_bind]
      refine ((ih item List.mem_cons_self).ends consistent canonical).imp ?_
      intro id middle ⟨sound, keeps, represents⟩
      exact @Keeps.ends_allocate _ _ keeps sound (.listOf item) [id] (.cons represents .nil)
    | referenceTo target =>
      rw [elaborate, ends_bind]
      refine ((ih target List.mem_cons_self).ends consistent canonical).imp ?_
      intro id middle ⟨sound, keeps, represents⟩
      exact @Keeps.ends_allocate _ _ keeps sound (.referenceTo target) [id] (.cons represents .nil)
    | sequence connective items =>
      rw [elaborate, ends_bind]
      have whole := Spec.canonical_each_iff.mp canonical.2
      refine (ends_elaborateEach_represents ih consistent whole).imp ?_
      intro ids middle ⟨sound, keeps, represents⟩
      exact @Keeps.ends_allocate _ _ keeps sound (.sequence connective items) ids represents
    | _ => exact leaf rfl

end Catalog

end DocShapes
