import DocShapes.Catalog.Dereference
import DocShapes.Proofs.Consistency
import Mathlib.Order.WellFounded

/-! # Chains of retired definitions

In a consistent catalog a retired definition leads to a canonical one, and no canonical one is
retired. So a chain ends after at most one hop, whatever the number of steps it is given.
-/

namespace DocShapes.Catalog

variable {catalog : Catalog}

/-- One round of the loops that follow retired definitions takes the second id to the first. -/
def Hop (catalog : Catalog) (next id : TypeId) : Prop :=
  ∃ landing, catalog.forward.get? id = some landing ∧ landing.target = next

/-! ## Ends of chains -/

theorem Consistent.forward_of_known (consistent : catalog.Consistent) {name : String} {id : TypeId}
    (known : catalog.known? name = some id) : catalog.forward.get? id = none := by
  cases found : catalog.forward.get? id with
  | none => rfl
  | some landing => exact absurd known ((consistent.retired id landing found).2.1 name)

theorem Consistent.forward_of_canonical (consistent : catalog.Consistent) {name : String}
    {id : TypeId} (canonical : catalog.canonical.get? name = some id) :
    catalog.forward.get? id = none :=
  consistent.forward_of_known (known?_of_canonical canonical)

theorem Consistent.forward_of_hop (consistent : catalog.Consistent) {next id : TypeId}
    (hop : catalog.Hop next id) : catalog.forward.get? next = none := by
  obtain ⟨landing, found, rfl⟩ := hop
  obtain ⟨_, _, name, canonical⟩ := consistent.retired id landing found
  exact consistent.forward_of_canonical canonical

theorem Consistent.wellFounded_hop (consistent : catalog.Consistent) :
    WellFounded catalog.Hop := by
  have ended {id : TypeId} (none : catalog.forward.get? id = none) : Acc catalog.Hop id := by
    refine .intro id fun next hop => ?_
    obtain ⟨landing, found, _⟩ := hop
    simp [none] at found
  exact ⟨fun id => .intro id fun next hop => ended (consistent.forward_of_hop hop)⟩

/-! ## One hop -/

/-- Where ids lead depends on the retired definitions alone. -/
theorem follow_congr {before after : Catalog} (same : after.forward = before.forward)
    (id : TypeId) : after.follow id = before.follow id := by
  have chains (fuel : Nat) : after.followFrom fuel id = before.followFrom fuel id := by
    induction fuel generalizing id with
    | zero => rfl
    | succ fuel ih => simp only [followFrom, same, ih]
  rw [follow, follow, same, chains]

/-- Where ids lead, and with which docs, depends on the retired definitions alone. -/
theorem landing_congr {before after : Catalog} (same : after.forward = before.forward)
    (id : TypeId) : after.landing id = before.landing id := by
  have chains (fuel : Nat) (id : TypeId) (doc : Option String) :
      after.landingFrom fuel id doc = before.landingFrom fuel id doc := by
    induction fuel generalizing id doc with
    | zero => rfl
    | succ fuel ih => simp only [landingFrom, same, ih]
  rw [landing, landing, same, chains]

theorem followFrom_of_forward_eq_none {id : TypeId} (none : catalog.forward.get? id = none)
    (fuel : Nat) : catalog.followFrom fuel id = id := by
  cases fuel <;> simp [followFrom, none]

theorem landingFrom_of_forward_eq_none {id : TypeId} (none : catalog.forward.get? id = none)
    (fuel : Nat) (doc : Option String) : catalog.landingFrom fuel id doc = ⟨id, doc⟩ := by
  cases fuel <;> simp [landingFrom, none]

theorem Consistent.landingFrom_eq (consistent : catalog.Consistent) (id : TypeId) {fuel : Nat}
    (enough : catalog.forward.size ≤ fuel) :
    catalog.landingFrom fuel id none = (catalog.forward.get? id).getD ⟨id, none⟩ := by
  cases found : catalog.forward.get? id with
  | none => exact landingFrom_of_forward_eq_none found fuel none
  | some landing =>
    have ended := consistent.forward_of_hop ⟨landing, found, rfl⟩
    have positive : 0 < catalog.forward.size :=
      List.length_pos_of_mem (OrderedMap.mem_entries_of_get? found)
    cases fuel with
    | zero => omega
    | succ fuel => simp [landingFrom, found, landingFrom_of_forward_eq_none ended]

/-- A chain has one hop if its id is retired, and none otherwise. -/
theorem Consistent.landing_eq (consistent : catalog.Consistent) (id : TypeId) :
    catalog.landing id = (catalog.forward.get? id).getD ⟨id, none⟩ :=
  consistent.landingFrom_eq id (Nat.le_refl _)

theorem target_landingFrom (fuel : Nat) (id : TypeId) (doc : Option String) :
    (catalog.landingFrom fuel id doc).target = catalog.followFrom fuel id := by
  induction fuel generalizing id doc with
  | zero => rfl
  | succ fuel ih =>
    cases found : catalog.forward.get? id with
    | none => simp [landingFrom, followFrom, found]
    | some landing => simp [landingFrom, followFrom, found, ih]

theorem Consistent.followFrom_eq (consistent : catalog.Consistent) (id : TypeId) {fuel : Nat}
    (enough : catalog.forward.size ≤ fuel) :
    catalog.followFrom fuel id = ((catalog.forward.get? id).map Landing.target).getD id := by
  rw [← target_landingFrom fuel id none, consistent.landingFrom_eq id enough]
  cases catalog.forward.get? id <;> rfl

theorem Consistent.follow_eq (consistent : catalog.Consistent) (id : TypeId) :
    catalog.follow id = ((catalog.forward.get? id).map Landing.target).getD id :=
  consistent.followFrom_eq id (Nat.le_refl _)

theorem Consistent.follow_of_hop (consistent : catalog.Consistent) {id next : TypeId}
    (hop : catalog.Hop next id) : catalog.follow next = catalog.follow id := by
  have ended := consistent.forward_of_hop hop
  obtain ⟨landing, found, rfl⟩ := hop
  rw [consistent.follow_eq, consistent.follow_eq, ended, found]
  rfl

theorem target_landing (id : TypeId) : (catalog.landing id).target = catalog.follow id :=
  target_landingFrom _ id none

theorem follow_of_forward_eq_none {id : TypeId} (none : catalog.forward.get? id = none) :
    catalog.follow id = id := followFrom_of_forward_eq_none none _

/-- Where a chain leads, no further hop follows. -/
theorem Consistent.forward_follow (consistent : catalog.Consistent) (id : TypeId) :
    catalog.forward.get? (catalog.follow id) = none := by
  rw [consistent.follow_eq]
  cases found : catalog.forward.get? id with
  | none => exact found
  | some landing => exact consistent.forward_of_hop ⟨landing, found, rfl⟩

theorem Consistent.holds_follow (consistent : catalog.Consistent) {id : TypeId}
    (held : catalog.Holds id) : catalog.Holds (catalog.follow id) := by
  rw [consistent.follow_eq]
  cases found : catalog.forward.get? id with
  | none => exact held
  | some landing =>
    obtain ⟨_, _, name, canonical⟩ := consistent.retired id landing found
    exact (consistent.owned name _ (known?_of_canonical canonical)).held

end DocShapes.Catalog
