import DocShapes.Proofs.Concurring
import DocShapes.Proofs.Framing
import DocShapes.Proofs.Furnishing
import DocShapes.Proofs.Gathering
import DocShapes.Proofs.Payload
import DocShapes.Proofs.Refeeding

/-! # A text of definitions before or after blocks

Blocks are read into a catalog that has the definitions of a text, or the text is loaded into a
catalog that has the declarations of the blocks. The definitions of the two catalogs are joined by
where they come from: those of the text stand in front of those of the blocks in the first catalog,
and behind them in the second one. What is joined has the same name, or the same shape.
-/

namespace DocShapes.Catalog

variable {definitions definitions' : List Definition} {definition : Definition}
  {parsed loaded left bare reparsed right : Catalog} {one other : TypeId} {name : String}

/-! ## Told names -/

/-- The bases of the names that definitions have. -/
def toldOf (definitions : List Definition) (name : String) : Option Base :=
  (definitions.find? fun definition => definition.name = name).map Definition.base

theorem toldOf_eq_none (absent : name ∉ definitions.map Definition.name) :
    toldOf definitions name = none := by
  rw [toldOf, List.find?_eq_none.mpr, Option.map_none]
  intro definition member same
  exact absent (List.mem_map.mpr ⟨definition, member, of_decide_eq_true same⟩)

theorem exists_of_toldOf {base : Base} (told : toldOf definitions name = some base) :
    ∃ definition ∈ definitions, definition.name = name ∧ definition.base = base := by
  obtain ⟨definition, found, same⟩ := Option.map_eq_some_iff.mp told
  exact ⟨definition, List.mem_of_find?_eq_some found, by simpa using List.find?_some found, same⟩

theorem toldOf_eq_some (apart : (definitions.map Definition.name).Nodup)
    (member : definition ∈ definitions) :
    toldOf definitions definition.name = some definition.base := by
  cases told : toldOf definitions definition.name with
  | none =>
    rw [toldOf, Option.map_eq_none_iff, List.find?_eq_none] at told
    exact absurd (decide_eq_true rfl) (told definition member)
  | some base =>
    obtain ⟨other, inside, same, own⟩ := exists_of_toldOf told
    obtain rfl := List.inj_on_of_nodup_map apart inside member same
    rw [own]

/-! ## Two readings -/

/-- The text is read into the fresh catalog and behind blocks. -/
def earlyOf (bare : Catalog) : Comparison where
  left := 0
  right := bare.arena.size
  told _ := none
  words := bare.words
  staging := false

/-- The blocks are read behind definitions and into the fresh catalog. -/
def lateOf (loaded : Catalog) (definitions : List Definition) : Comparison where
  left := loaded.arena.size
  right := 0
  told := toldOf definitions
  words := loaded.words
  staging := true

/-- Definitions of the text, or of the blocks. -/
inductive Joined (parsed loaded bare : Catalog) (one other : TypeId) : Prop
  | early (held : parsed.Holds one) (same : other.index = one.index + bare.arena.size)
  | late (held : bare.Holds other) (same : one.index = other.index + loaded.arena.size)

theorem links_earlyOf :
    (earlyOf bare).Links one other ↔ other.index = one.index + bare.arena.size := by
  constructor
  · rintro ⟨_, _, same⟩
    exact same.symm
  · intro same
    exact ⟨Nat.zero_le _, same ▸ Nat.le_add_left _ _, same.symm⟩

theorem links_lateOf :
    (lateOf loaded definitions).Links one other ↔
      one.index = other.index + loaded.arena.size := by
  constructor
  · rintro ⟨_, _, same⟩
    exact same
  · intro same
    exact ⟨same ▸ Nat.le_add_left _ _, Nat.zero_le _, same⟩

theorem biUnique_joined (size : parsed.arena.size ≤ loaded.arena.size) :
    Relator.BiUnique (Joined parsed loaded bare) := by
  constructor
  · rintro ⟨first⟩ ⟨second⟩ ⟨other⟩ (⟨held, same⟩ | ⟨held, same⟩)
      (⟨held', same'⟩ | ⟨held', same'⟩) <;>
      simp only [Holds, TypeId.mk.injEq] at held same held' same' ⊢ <;> omega
  · rintro ⟨one⟩ ⟨first⟩ ⟨second⟩ (⟨held, same⟩ | ⟨held, same⟩)
      (⟨held', same'⟩ | ⟨held', same'⟩) <;>
      simp only [Holds, TypeId.mk.injEq] at held same held' same' ⊢ <;> omega

/-- The text has been loaded in front of the blocks, which gives `left`, and behind them, which
gives `right`. All its definitions say something, and what it mentions says nothing. -/
structure Transposed (definitions definitions' : List Definition)
    (parsed loaded left bare reparsed right : Catalog) : Prop where
  early : Compares (earlyOf bare) parsed reparsed
  late : Compares (lateOf loaded definitions) left bare
  furnished : parsed.Furnished definitions loaded
  furnished' : reparsed.Furnished definitions' right
  growth : Growth loaded.arena.size loaded left
  growth' : Growth bare.arena.size bare reparsed
  consistent : parsed.Consistent ∧ loaded.Consistent ∧ left.Consistent
  consistent' : bare.Consistent ∧ reparsed.Consistent ∧ right.Consistent
  nested : left.Nested
  nested' : right.Nested
  twins : List.Forall₂ (Definition.Twin (earlyOf bare).Links) definitions definitions'
  definable : parsed.AllDefinable definitions
  telling : ∀ definition ∈ definitions, definition.isShell = false
  mentions : ∀ {id name}, parsed.Names id name → (parsed.definition id).isShell = true
  gathered : bare.Gathered
  unmerged : parsed.canonical = .empty ∧ parsed.forward = .empty
  unstaged : reparsed.pending = bare.pending
  distinct : left.KeepsApart

/-! ## Growing catalogs -/

theorem Growth.known?_of_known {base : Nat} {before after : Catalog}
    (growth : Growth base before after) (start : base ≤ before.arena.size) {id : TypeId}
    (known : before.known? name = some id) : after.known? name = some id := by
  obtain ⟨added, same, _⟩ := (growth.frame start).provisional
  rw [known?, growth.untouched.canonical]
  rw [known?] at known
  cases found : before.canonical.get? name with
  | some canonical =>
    rw [found] at known
    exact known
  | none =>
    rw [found] at known
    have present : OrderedMap.find name before.provisional.entries = some id := known
    change OrderedMap.find name after.provisional.entries = some id
    rw [same, OrderedMap.find_append, present]
    rfl

/-- What a name is known by is known from before, or it is new. -/
theorem Growth.known?_or_new {before after : Catalog}
    (growth : Growth before.arena.size before after) {id : TypeId}
    (known : after.known? name = some id) :
    before.known? name = some id ∨ before.known? name = none ∧ ¬before.Holds id := by
  cases earlier : before.known? name with
  | some place =>
    rw [growth.known?_of_known (Nat.le_refl _) earlier] at known
    exact .inl known
  | none =>
    obtain ⟨added, same, fresh⟩ := (growth.frame (Nat.le_refl _)).provisional
    obtain ⟨free, unknown⟩ := Option.or_eq_none_iff.mp earlier
    rw [known?, growth.untouched.canonical, free, Option.none_or] at known
    have found : OrderedMap.find name after.provisional.entries = some id := known
    rw [same, OrderedMap.find_append,
      show OrderedMap.find name before.provisional.entries = none from unknown] at found
    have member : (name, id) ∈ (⟨added⟩ : OrderedMap String TypeId).entries :=
      OrderedMap.mem_entries_of_get? found
    exact .inr ⟨rfl, Nat.not_lt_of_le (fresh _ member).1⟩

theorem Growth.known?_eq_some_iff {before after : Catalog}
    (growth : Growth before.arena.size before after) {id : TypeId} (held : before.Holds id) :
    after.known? name = some id ↔ before.known? name = some id :=
  ⟨fun known => (growth.known?_or_new known).resolve_right fun new => new.2 held,
    growth.known?_of_known (Nat.le_refl _)⟩

theorem Growth.names_iff {before after : Catalog}
    (growth : Growth before.arena.size before after) {id : TypeId} (held : before.Holds id) :
    after.Names id name ↔ before.Names id name := by
  have same := growth.definition_eq (Nat.le_refl _) held
  constructor
  · rintro ⟨_, named, title⟩
    exact ⟨held, same ▸ named, same ▸ title⟩
  · rintro ⟨_, named, title⟩
    exact ⟨growth.holds held, same.symm ▸ named, same.symm ▸ title⟩

namespace Furnished

variable {before after : Catalog} {id : TypeId}

/-- A definition keeps its name, and one without a name stays as it is. -/
theorem kept (furnished : before.Furnished definitions after) (consistent : before.Consistent)
    (consistent' : after.Consistent) (held : before.Holds id) :
    after.definition id = before.definition id ∨
      ∃ definition ∈ definitions, after.known? definition.name = some id ∧
        after.definition id = definition ∧ before.Names id definition.name ∧
          after.Names id definition.name := by
  rcases furnished.definition_cases held with ⟨definition, member, known, known', own⟩ | same
  · exact .inr ⟨definition, member, known', own, consistent.owned _ id known,
      consistent'.owned _ id known'⟩
  · exact .inl same

theorem names_iff (furnished : before.Furnished definitions after) (consistent : before.Consistent)
    (consistent' : after.Consistent) (held : before.Holds id) :
    after.Names id name ↔ before.Names id name := by
  rcases furnished.kept consistent consistent' held with same | ⟨_, _, _, _, names, names'⟩
  · constructor
    · rintro ⟨_, named, title⟩
      exact ⟨held, same ▸ named, same ▸ title⟩
    · rintro ⟨_, named, title⟩
      exact ⟨furnished.held held, same.symm ▸ named, same.symm ▸ title⟩
  · constructor
    · intro title
      exact title.same.symm.trans names'.same ▸ names
    · intro title
      exact title.same.symm.trans names.same ▸ names'

theorem of_unnamed (furnished : before.Furnished definitions after)
    (consistent : before.Consistent) (consistent' : after.Consistent) (held : before.Holds id)
    (unnamed : (before.definition id).isNamed = false) :
    after.definition id = before.definition id := by
  refine (furnished.kept consistent consistent' held).resolve_right ?_
  rintro ⟨_, _, _, _, names, _⟩
  exact not_names_of_unnamed unnamed names

end Furnished

/-! ## The first catalog -/

namespace Transposed

variable (transposed : Transposed definitions definitions' parsed loaded left bare reparsed right)

include transposed

theorem size_le : parsed.arena.size ≤ loaded.arena.size := by
  by_contra less
  have held : parsed.Holds ⟨loaded.arena.size⟩ := Nat.lt_of_not_le less
  exact Nat.lt_irrefl _ (transposed.furnished.held held)

theorem unique : Relator.BiUnique (Joined parsed loaded bare) := biUnique_joined transposed.size_le

/-- The definition of a name of the text. -/
theorem installed (member : definition ∈ definitions) :
    ∃ id, loaded.Holds id ∧ left.known? definition.name = some id ∧
      left.definition id = definition := by
  obtain ⟨id, known, own, _⟩ := transposed.furnished.defined definition member
  have held := (transposed.consistent.2.1.owned _ id known).held
  exact ⟨id, held, (transposed.growth.known?_eq_some_iff held).mpr known,
    (transposed.growth.definition_eq (Nat.le_refl _) held).trans own⟩

/-- What the text has made, in the first catalog. -/
theorem left_early (held : parsed.Holds one) :
    left.definition one = parsed.definition one ∨
      ∃ definition ∈ definitions, left.known? definition.name = some one ∧
        left.definition one = definition ∧ parsed.Names one definition.name := by
  have inside := transposed.furnished.held held
  have same := transposed.growth.definition_eq (Nat.le_refl _) inside
  rw [same]
  rcases transposed.furnished.kept transposed.consistent.1 transposed.consistent.2.1 held with
    same | ⟨definition, member, known, own, names, _⟩
  · exact .inl same
  · exact .inr ⟨definition, member, (transposed.growth.known?_eq_some_iff inside).mpr known, own,
      names⟩

theorem left_names_early (held : parsed.Holds one) :
    left.Names one name ↔ parsed.Names one name :=
  (transposed.growth.names_iff (transposed.furnished.held held)).trans
    (transposed.furnished.names_iff transposed.consistent.1 transposed.consistent.2.1 held)

/-- Every definition of the first catalog is joined, or it is that of a name of the text. -/
theorem left_cases (held : left.Holds one) :
    (∃ other, Joined parsed loaded bare one other) ∨
      ∃ definition ∈ definitions, left.known? definition.name = some one := by
  by_cases inside : loaded.Holds one
  · rcases transposed.furnished.fresh inside with earlier | ⟨definition, member, known⟩
    · exact .inl ⟨⟨one.index + bare.arena.size⟩, .early earlier rfl⟩
    · exact .inr ⟨definition, member, (transposed.growth.known?_eq_some_iff inside).mpr known⟩
  · have size := transposed.late.size
    simp only [Holds, lateOf] at held inside size
    refine .inl ⟨⟨one.index - loaded.arena.size⟩, .late ?_ ?_⟩
    · simp only [Holds]
      omega
    · simp only
      omega

/-! ## The second catalog -/

theorem installed' (member : definition ∈ definitions') :
    ∃ id, right.known? definition.name = some id ∧ right.definition id = definition := by
  obtain ⟨id, known, own, _⟩ := transposed.furnished'.defined definition member
  exact ⟨id, known, own⟩

theorem right_cases (held : right.Holds other) :
    (∃ one, Joined parsed loaded bare one other) ∨
      ∃ definition ∈ definitions', right.known? definition.name = some other := by
  rcases transposed.furnished'.fresh held with earlier | new
  · refine .inl ?_
    by_cases inside : bare.Holds other
    · exact ⟨⟨other.index + loaded.arena.size⟩, .late inside rfl⟩
    · have size := transposed.early.size
      simp only [Holds, earlyOf] at earlier inside size
      refine ⟨⟨other.index - bare.arena.size⟩, .early ?_ ?_⟩
      · simp only [Holds]
        omega
      · simp only
        omega
  · exact .inr new

/-! ## What is joined -/

theorem early_twin (held : parsed.Holds one) (same : other.index = one.index + bare.arena.size) :
    (parsed.definition one).Twin (Joined parsed loaded bare) (reparsed.definition other) ∧
      (parsed.definition one).annotations = .empty ∧
        ((parsed.definition one).isNamed = true → (parsed.definition one).base = .record) := by
  obtain ⟨twin, plain, record⟩ :=
    (transposed.early.definitions (links_earlyOf.mpr same) held).toTwin fun _ => rfl
  refine ⟨twin.mem.imp fun child child' inside => ?_, plain, record⟩
  exact .early (transposed.consistent.1.linked one held child inside.1) (links_earlyOf.mp inside.2)

theorem left_holds_late (held : bare.Holds other)
    (same : one.index = other.index + loaded.arena.size) : left.Holds one :=
  (transposed.late.holds (links_lateOf.mpr same)).mpr held

/-- What the blocks have made: the same definitions, or mentions of a name of the text. -/
theorem late_cases (held : bare.Holds other)
    (same : one.index = other.index + loaded.arena.size) :
    ((left.definition one).Twin (Joined parsed loaded bare) (bare.definition other) ∧
      ((left.definition one).isNamed = true →
        toldOf definitions (left.definition one).name = none ∧
          (left.definition one).base = .record)) ∨
      ∃ definition ∈ definitions,
        left.definition one = shellOf definition.base definition.name ∧
          bare.definition other = shellOf .record definition.name := by
  have links : (lateOf loaded definitions).Links one other := links_lateOf.mpr same
  have resembles := transposed.late.definitions links (transposed.left_holds_late held same)
  generalize own : left.definition one = first at resembles
  generalize own' : bare.definition other = second at resembles
  cases resembles with
  | twin twin plain untold =>
    refine .inl ⟨?_, untold⟩
    subst own own'
    refine twin.mem.imp fun child child' inside => .late ?_ (links_lateOf.mp inside.2)
    exact (transposed.late.holds inside.2).mp
      (transposed.consistent.2.2.linked one (transposed.left_holds_late held same) child inside.1)
  | mention told =>
    obtain ⟨definition, member, rfl, rfl⟩ := exists_of_toldOf told
    exact .inr ⟨definition, member, rfl, rfl⟩

theorem right_names_late (held : bare.Holds other) :
    right.Names other name ↔ bare.Names other name :=
  (transposed.furnished'.names_iff transposed.consistent'.2.1 transposed.consistent'.2.2
    (transposed.growth'.holds held)).trans (transposed.growth'.names_iff held)

theorem names_iff (joined : Joined parsed loaded bare one other) :
    left.Names one name ↔ right.Names other name := by
  cases joined with
  | early held same =>
    have links := links_earlyOf.mpr same
    have held' := (transposed.early.holds links).mp held
    obtain ⟨twin, _⟩ := transposed.early_twin held same
    rw [transposed.left_names_early held, transposed.furnished'.names_iff transposed.consistent'.2.1
      transposed.consistent'.2.2 held']
    constructor
    · rintro ⟨_, named, title⟩
      exact ⟨held', twin.isNamed.trans named, twin.name.trans title⟩
    · rintro ⟨_, named, title⟩
      exact ⟨held, twin.isNamed.symm.trans named, twin.name.symm.trans title⟩
  | late held same =>
    have links : (lateOf loaded definitions).Links _ _ := links_lateOf.mpr same
    have held' := transposed.left_holds_late held same
    have resembles := transposed.late.definitions links held'
    rw [transposed.right_names_late held]
    constructor
    · rintro ⟨_, named, title⟩
      exact ⟨held, resembles.isNamed.trans named, resembles.name.trans title⟩
    · rintro ⟨_, named, title⟩
      exact ⟨held', resembles.isNamed.symm.trans named, resembles.name.symm.trans title⟩

theorem holds_of_joined (joined : Joined parsed loaded bare one other) :
    left.Holds one ∧ right.Holds other := by
  cases joined with
  | early held same =>
    exact ⟨transposed.growth.holds (transposed.furnished.held held),
      transposed.furnished'.held ((transposed.early.holds (links_earlyOf.mpr same)).mp held)⟩
  | late held same =>
    exact ⟨transposed.left_holds_late held same,
      transposed.furnished'.held (transposed.growth'.holds held)⟩

/-- What has no name is the same in both catalogs. -/
theorem twin_of_unnamed (joined : Joined parsed loaded bare one other)
    (unnamed : (left.definition one).isNamed = false) :
    (left.definition one).Twin (Joined parsed loaded bare) (right.definition other) := by
  have sound' := transposed.consistent'.2
  cases joined with
  | early held same =>
    obtain ⟨twin, _⟩ := transposed.early_twin held same
    rcases transposed.left_early held with own | ⟨definition, member, known, own, names⟩
    · rw [own] at unnamed ⊢
      rw [transposed.furnished'.of_unnamed sound'.1 sound'.2
        ((transposed.early.holds (links_earlyOf.mpr same)).mp held) (twin.isNamed.trans unnamed)]
      exact twin
    · exact absurd ((transposed.left_names_early held).mpr names) (not_names_of_unnamed unnamed)
  | late held same =>
    rcases transposed.late_cases held same with ⟨twin, _⟩ | ⟨definition, member, own, _⟩
    · have kept := transposed.growth'.definition_eq (Nat.le_refl _) held
      rw [transposed.furnished'.of_unnamed sound'.1 sound'.2 (transposed.growth'.holds held), kept]
      · exact twin
      · rw [kept]
        exact twin.isNamed.trans unnamed
    · rw [own, shellOf] at unnamed
      split at unnamed <;> cases unnamed

/-! ## The definitions of the text -/

theorem answered (member : definition ∈ definitions) :
    ∃ definition' ∈ definitions', definition.Twin (Joined parsed loaded bare) definition' := by
  obtain ⟨definition', member', inside, twin⟩ :=
    exists_of_forall₂ (forall₂_mem transposed.twins).flip member
  refine ⟨definition', member', twin.mem.imp fun child child' link => ?_⟩
  exact .early (transposed.definable.children _ inside child link.1) (links_earlyOf.mp link.2)

theorem answered' (member : definition ∈ definitions') :
    ∃ own ∈ definitions, own.Twin (Joined parsed loaded bare) definition := by
  obtain ⟨own, member, inside, twin⟩ := exists_of_forall₂ (forall₂_mem transposed.twins) member
  refine ⟨own, member, twin.mem.imp fun child child' link => ?_⟩
  exact .early (transposed.definable.children _ inside child link.1) (links_earlyOf.mp link.2)

theorem titles_eq : definitions'.map Definition.name = definitions.map Definition.name :=
  map_eq_of_forall₂ transposed.twins fun _ _ twin => twin.name

end Transposed

end DocShapes.Catalog
