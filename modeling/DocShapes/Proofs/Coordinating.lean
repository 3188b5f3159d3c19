import DocShapes.Proofs.Aligning
import DocShapes.Proofs.Instating
import DocShapes.Proofs.Interchange
import DocShapes.Proofs.Remerging

/-! # Names merged in two catalogs

Two catalogs are coordinated while the same names are merged in them, one after the other. Their
definitions correspond, up to the place where the definition of a name stands: in one catalog this
may be a mention that a channel has staged and in the other one a definition that no channel has.
Where the first catalog merges a name the second one does so too (`simulates_mergeName`), and in the
end the two are aligned (`Coordinated.aligned`).
-/

namespace DocShapes.Catalog

variable {linked : TypeId → TypeId → Prop} {quiet : TypeId → Prop} {extended : String → Prop}
  {rest : List String} {left right left' right' : Catalog} {one other one' other' : TypeId}

/-! ## The relation -/

/-- Two definitions that correspond: both have no name, or both have the same one. Those of a name
that is merged lead to it, those of the others wait. -/
inductive Match (linked : TypeId → TypeId → Prop) (rest : List String) (left right : Catalog)
    (one other : TypeId) : Prop
  | plain (held : left.Holds one) (held' : right.Holds other)
      (unnamed : (left.definition one).isNamed = false)
      (twin : (left.definition one).Twin linked (right.definition other))
      (unforwarded : left.forward.get? one = none) (unforwarded' : right.forward.get? other = none)
      (strange : (left.definition one).base = .unknown →
        left.isKnown (left.wanted one) = false)
  | titled {name : String} (names : left.Names one name) (names' : right.Names other name)
      (leads : name ∉ rest → ∃ doc, left.Leads one name doc ∧ right.Leads other name doc)
      (waits : name ∈ rest → left.forward.get? one = none ∧ right.forward.get? other = none)

/-- Between two merges the catalogs have the same canonical names; `rest` are the names that are
still to be merged. No quiet type mentions an extension. -/
structure Coordinated (linked : TypeId → TypeId → Prop) (quiet : TypeId → Prop)
    (extended : String → Prop) (rest : List String) (left right : Catalog) : Prop where
  consistent : left.Consistent
  consistent' : right.Consistent
  nested : left.Nested
  nested' : right.Nested
  unique : Relator.BiUnique linked
  aliases : right.aliases = left.aliases
  keys : right.canonical.keys = left.canonical.keys
  isKnown : ∀ name, right.isKnown name = left.isKnown name
  known : ∀ {name one other}, name ∉ rest → left.known? name = some one →
    right.known? name = some other → (left.definition one).Twin linked (right.definition other)
  pairs : ∀ {one other}, linked one other → Match linked rest left right one other
  records : ∀ {id name}, left.Names id name → ¬extended name → (left.definition id).base = .record
  records' : ∀ {id name}, right.Names id name → ¬extended name →
    (right.definition id).base = .record
  inside : ∀ {id}, quiet id → left.Holds id
  calm : ∀ {id name}, quiet id → left.Names id name → ¬extended name
  down : ∀ {id}, quiet id → (left.definition id).isNamed = false →
    ∀ child ∈ (left.shape id).children, quiet child

/-! ## Equivalent types -/

theorem Nested.equivalent_eq_within {catalog : Catalog} (nested : catalog.Nested)
    (consistent : catalog.Consistent) (id : TypeId) {depth : Nat}
    (enough : catalog.arena.size < depth) :
    catalog.equivalent id = catalog.equivalentWithin depth id := by
  have bound := nested.height_le consistent id
  refine @Descending.rounds_eq _ _ catalog.compared catalog.equivalentWithin
    (fun related further id same => funext fun other => ?_) nested consistent (fun _ => rfl) id _ _
    (by omega) (by omega)
  simp only [compared]
  rw [definitionsAgree_congr fun unnamed child member => same child ⟨unnamed, member⟩]

theorem slotsAgree_of_twins {related related' : TypeId → TypeId → Bool}
    {slots slots' others others' : List Slot}
    (same : List.Forall₂ (Slot.Twin linked) slots slots')
    (same' : List.Forall₂ (Slot.Twin linked) others others')
    (each : ∀ slot ∈ slots, ∀ child child' other', linked slot.target child' →
      linked child other' → related slot.target child = true → related' child' other' = true)
    (agree : slotsAgree related slots others = true) :
    slotsAgree related' slots' others' = true := by
  induction same generalizing others others' with
  | nil => cases same' with
    | nil => rfl
    | cons => cases agree
  | cons first _ ih => cases same' with
    | nil => cases agree
    | cons second further =>
      simp only [slotsAgree, Bool.and_eq_true] at agree ⊢
      obtain ⟨⟨use, parts⟩, agree⟩ := agree
      rw [first.sameUse_eq second]
      exact ⟨⟨use, each _ List.mem_cons_self _ _ _ first.target second.target parts⟩,
        ih further (fun slot member => each slot (List.mem_cons_of_mem _ member)) agree⟩

theorem shapesAgree_of_twins {related related' : TypeId → TypeId → Bool}
    {shape shape' other other' : Shape} (twin : shape.Twin linked shape')
    (twin' : other.Twin linked other')
    (each : ∀ slot ∈ shape.slots, ∀ child child' other', linked slot.target child' →
      linked child other' → related slot.target child = true → related' child' other' = true)
    (agree : shapesAgree related shape other = true) :
    shapesAgree related' shape' other' = true := by
  obtain ⟨constants, slots⟩ := shapesAgree_iff.mp agree
  refine shapesAgree_iff.mpr ⟨fun value value' own own' => ?_,
    slotsAgree_of_twins twin.slots twin'.slots each slots⟩
  subst own
  subst own'
  cases twin
  cases twin'
  exact constants _ _ rfl rfl

theorem Match.follow (pair : Match linked rest left right one other)
    (consistent : left.Consistent) (consistent' : right.Consistent) :
    (left.follow one = one ∧ right.follow other = other ∧
        (left.definition one).isNamed = false ∧
        (left.definition one).Twin linked (right.definition other)) ∨
      ∃ name, left.Names one name ∧ left.Names (left.follow one) name ∧
        right.Names (right.follow other) name := by
  cases pair with
  | plain _ _ unnamed twin unforwarded unforwarded' =>
    exact .inl ⟨follow_of_forward_eq_none unforwarded, follow_of_forward_eq_none unforwarded',
      unnamed, twin⟩
  | @titled name names names' leads waits =>
    refine .inr ⟨name, names, ?_⟩
    by_cases member : name ∈ rest
    · obtain ⟨unforwarded, unforwarded'⟩ := waits member
      rw [follow_of_forward_eq_none unforwarded, follow_of_forward_eq_none unforwarded']
      exact ⟨names, names'⟩
    · obtain ⟨doc, leads, leads'⟩ := leads member
      exact ⟨leads.follow_names consistent names, leads'.follow_names consistent' names'⟩

namespace Coordinated

theorem equivalentWithin_of_quiet (coordinated : Coordinated linked quiet extended rest left right)
    (depth : Nat) (calm : quiet one) (link : linked one other) (link' : linked one' other')
    (agree : left.equivalentWithin depth one one' = true) :
    right.equivalentWithin depth other other' = true := by
  induction depth generalizing one other one' other' with
  | zero => cases agree
  | succ depth ih =>
    rw [equivalentWithin_succ_iff] at agree ⊢
    rcases (coordinated.pairs link).follow coordinated.consistent coordinated.consistent' with
      ⟨stays, stays', unnamed, twin⟩ | ⟨name, own, names, names'⟩
    · rcases (coordinated.pairs link').follow coordinated.consistent coordinated.consistent' with
        ⟨rests, rests', _, twin'⟩ | ⟨_, _, title, _⟩
      · rw [stays, rests] at agree
        rw [stays', rests']
        refine agree.imp (fun same => ?_) fun agree => ?_
        · exact (Relator.rel_eq coordinated.unique link link').mp same
        · obtain ⟨base, word, parts⟩ := definitionsAgree_iff.mp agree
          refine definitionsAgree_iff.mpr ⟨by rw [twin.base, twin'.base, base],
            by rw [twin.name, twin'.name, word], ?_⟩
          rw [twin.isNamed, twin.base, twin.doc, twin'.doc]
          refine parts.imp_right (Or.imp_right fun parts => ⟨parts.1, ?_⟩)
          refine shapesAgree_of_twins twin.shape twin'.shape
            (fun slot member _ _ _ child child' same => ?_) parts.2
          exact ih (coordinated.down calm unnamed _ (List.mem_map_of_mem member)) child child' same
      · -- A type without a name is not equivalent to one with a name.
        have named := title.named
        have different : (left.definition (left.follow one)).isNamed = false := by
          rw [stays, unnamed]
        rcases agree with same | agree
        · rw [← same, different] at named
          cases named
        · rw [← isNamed_eq_of_base (definitionsAgree_iff.mp agree).1, different] at named
          cases named
    · have free := coordinated.calm calm own
      have record := coordinated.records names free
      -- The other type leads to the same name, and so to a record in both catalogs.
      have alike : (left.definition (left.follow one')).isNamed = true ∧
          (left.definition (left.follow one')).name = name := by
        rcases agree with same | agree
        · rw [← same]
          exact ⟨names.named, names.same⟩
        · obtain ⟨base, word, _⟩ := definitionsAgree_iff.mp agree
          exact ⟨(isNamed_eq_of_base base).symm.trans names.named, word.symm.trans names.same⟩
      rcases (coordinated.pairs link').follow coordinated.consistent coordinated.consistent' with
        ⟨rests, _, unnamed, _⟩ | ⟨title, _, titled, titled'⟩
      · rw [rests, unnamed] at alike
        cases alike.1
      · obtain rfl : name = title := alike.2.symm.trans titled.same
        refine .inr (definitionsAgree_iff.mpr ⟨?_, ?_, .inl names'.named⟩)
        · rw [coordinated.records' names' free, coordinated.records' titled' free]
        · rw [names'.same, titled'.same]

theorem equivalent_of_quiet (coordinated : Coordinated linked quiet extended rest left right)
    (calm : quiet one) (link : linked one other) (link' : linked one' other')
    (agree : left.equivalent one one' = true) : right.equivalent other other' = true := by
  rw [coordinated.nested.equivalent_eq_within coordinated.consistent one
    (show left.arena.size < left.arena.size + right.arena.size + 1 by omega)] at agree
  rw [coordinated.nested'.equivalent_eq_within coordinated.consistent' other
    (show right.arena.size < left.arena.size + right.arena.size + 1 by omega)]
  exact coordinated.equivalentWithin_of_quiet _ calm link link' agree

end Coordinated

/-! ## What a name comes to -/

section

variable {keyed : TypeId → TypeId → Prop} {lone : Prop} {name : String}
  {staged staged' full full' : List Declaration}

/-- The declarations of a name that say something. -/
def fullOf (catalog : Catalog) (name : String) (staged : List Declaration) : List Declaration :=
  (catalog.mergeSites (catalog.known? name) staged).filter fun site =>
    !(catalog.definition site.id).isShell

/-- The base that the declarations of a name have in common. -/
def baseOf (catalog : Catalog) (name : String) (staged : List Declaration) : Base :=
  (((catalog.fullOf name staged).head?.or
    (catalog.mergeSites (catalog.known? name) staged).head?).map fun site =>
      (catalog.definition site.id).base).getD .record

/-- What declarations of a base come to in two catalogs. -/
structure Comes (keyed linked : TypeId → TypeId → Prop) (lone : Prop) (base : Base)
    (one other : Merged) : Prop where
  agrees : Merged.Agrees keyed linked lone one other
  record : base ≠ .extension → one.definition.base = .record

theorem some_of_echoes {α β : Type} {one : Except Error α} {other : Except Error β}
    {related : α → β → Prop} (echoes : Echoes one other related) :
    Simulates (some <$> ofExcept one) left (some <$> ofExcept other) right
      fun found after result later => (∃ made made', found = some made ∧ result = some made' ∧
        related made made') ∧ after = left ∧ later = right :=
  echoes.ofExcept.map fun made _ made' _ holds => ⟨⟨made, made', rfl, rfl, holds.1⟩, holds.2⟩

/-- The merge of a name has put what its declarations come to in its place. -/
def Fused (before : Catalog) (name : String) (staged : List Declaration) (merged : Option Merged)
    (after : Catalog) : Prop :=
  let target := mergeTarget (before.canonical.get? name) (before.known? name) staged
  before.Instated name staged (target.getD before.next)
    (before.instatement name (before.baseOf name staged) target merged)
    ((merged.map Merged.siteDocs).getD .empty) after

/-- Nothing of a name is merged yet: each of its declarations is staged once. -/
structure Unfused (catalog : Catalog) (name : String) (staged : List Declaration) : Prop where
  free : catalog.canonical.get? name = none
  names : ∀ declaration ∈ staged, catalog.Names declaration.id name
  once : (staged.map Declaration.id).Nodup

theorem Unfused.ends_instate {existing : TypeId} (unfused : left.Unfused name staged)
    (consistent : left.Consistent) (known : left.known? name = some existing)
    (merged : Option Merged) :
    Ends (do
        let id ← installMerged name (left.baseOf name staged)
          (mergeTarget (left.canonical.get? name) (left.known? name) staged) merged
        eraseProvisional name
        setCanonical name id
        retire id (left.mergeSites (left.known? name) staged)
          (if (mergeTarget (left.canonical.get? name) (left.known? name) staged).isSome then
            ((merged.map Merged.siteDocs).getD .empty).erase id
          else (merged.map Merged.siteDocs).getD .empty)) left
      (fun _ after => left.Fused name staged merged after) fun _ => False :=
  Catalog.ends_instate known unfused.free (consistent.owned name existing known).held
    (fun declaration member => (unfused.names declaration member).held) unfused.once _ merged rfl

theorem simulates_mergeName_fused (consistent : left.Consistent) (consistent' : right.Consistent)
    {existing existing' : TypeId} (known : left.known? name = some existing)
    (known' : right.known? name = some existing') (unfused : left.Unfused name staged)
    (unfused' : right.Unfused name staged') (unique : Relator.BiUnique keyed)
    (agree : List.Forall₂ (Declaration.Agrees keyed linked lone left right)
      (left.fullOf name staged) (right.fullOf name staged'))
    (alone : lone → (left.fullOf name staged).length ≤ 1)
    (transfers : ∀ field,
      Transfers linked left right (left.usesOf (left.fullOf name staged) field))
    (base : right.baseOf name staged' = left.baseOf name staged)
    (single : left.baseOf name staged = .extension → (left.fullOf name staged).length ≤ 1) :
    Simulates (mergeName name staged) left (mergeName name staged') right
      fun _ after _ later => ∃ merged merged',
        Option.Rel (Comes keyed linked lone (left.baseOf name staged)) merged merged' ∧
          (merged = none → left.fullOf name staged = []) ∧
          left.Fused name staged merged after ∧ right.Fused name staged' merged' later := by
  have bases := basesOf_eq agree
  have tail {merged merged' : Option Merged}
      (made : Option.Rel (Comes keyed linked lone (left.baseOf name staged)) merged merged')
      (empty : merged = none → left.fullOf name staged = []) : Simulates (do
        let id ← installMerged name (left.baseOf name staged)
          (mergeTarget (left.canonical.get? name) (left.known? name) staged) merged
        eraseProvisional name
        setCanonical name id
        retire id (left.mergeSites (left.known? name) staged)
          (if (mergeTarget (left.canonical.get? name) (left.known? name) staged).isSome then
            ((merged.map Merged.siteDocs).getD .empty).erase id
          else (merged.map Merged.siteDocs).getD .empty)) left (do
        let id ← installMerged name (right.baseOf name staged')
          (mergeTarget (right.canonical.get? name) (right.known? name) staged') merged'
        eraseProvisional name
        setCanonical name id
        retire id (right.mergeSites (right.known? name) staged')
          (if (mergeTarget (right.canonical.get? name) (right.known? name) staged').isSome then
            ((merged'.map Merged.siteDocs).getD .empty).erase id
          else (merged'.map Merged.siteDocs).getD .empty)) right
      fun _ after _ later => ∃ merged merged',
        Option.Rel (Comes keyed linked lone (left.baseOf name staged)) merged merged' ∧
          (merged = none → left.fullOf name staged = []) ∧
          left.Fused name staged merged after ∧ right.Fused name staged' merged' later := by
    intro _ after done
    have fused := (unfused.ends_instate consistent known merged).of_ok done
    obtain ⟨found, later, done', fused'⟩ :=
      (unfused'.ends_instate consistent' known' merged').exists_ok
    exact ⟨found, later, done', merged, merged', made, empty, fused, fused'⟩
  refine simulates_get (simulates_ite (by
    change (left.basesOf (left.fullOf name staged)).length > 1 ↔
      (right.basesOf (right.fullOf name staged')).length > 1
    rw [bases]) (fun _ _ => simulates_throw _) fun _ _ => simulates_ite (by
    change (left.fullOf name staged).isEmpty = true ↔ (right.fullOf name staged').isEmpty = true
    rw [List.isEmpty_iff_length_eq_zero, List.isEmpty_iff_length_eq_zero, agree.length_eq])
      (fun empty _ => tail .none fun _ => List.isEmpty_iff.mp empty) fun _ _ => simulates_ite (by
    change left.baseOf name staged = .extension ↔ right.baseOf name staged' = .extension
    rw [base]) (fun extension _ => ?_) fun _ _ => ?_)
  · have echoes : Echoes _ _ (Comes keyed linked lone (left.baseOf name staged)) :=
      (echoes_mergeExtension name unique agree (single extension)).imp
        fun _ _ made => ⟨made, fun other => absurd extension other⟩
    refine (some_of_echoes echoes).bind ?_
    rintro _ _ _ _ _ _ ⟨⟨merged, merged', rfl, rfl, made⟩, rfl, rfl⟩
    exact tail (.some made) nofun
  · have echoes : Echoes _ _ (Comes keyed linked lone (left.baseOf name staged)) :=
      (echoes_mergeRecord name unique agree alone transfers).imp
        fun _ _ made => ⟨made.1, fun _ => made.2⟩
    refine (some_of_echoes echoes).bind ?_
    rintro _ _ _ _ _ _ ⟨⟨merged, merged', rfl, rfl, made⟩, rfl, rfl⟩
    exact tail (.some made) nofun

end

end DocShapes.Catalog
