import DocShapes.Proofs.Identity

/-! # Readings leave alone what was there

Every way to read a text, be it a single type, a declaration or a block that a channel may stage,
lets a catalog grow and does nothing else, also where it fails. The definitions that were there
keep what they say; canonical names, spellings and retired definitions stay; provisional names and
buckets get new definitions behind the ones that they have (`frame_of_isReading`).
-/

namespace DocShapes.Catalog

variable {base : Nat} {before after : Catalog}

/-! ## Frames -/

/-- After a reading that started when there were `base` definitions, a catalog is as it was, apart
from definitions from `base` on and from entries that lead to them. -/
structure Frame (base : Nat) (before after : Catalog) : Prop where
  untouched : before.Untouched after
  size_le : before.arena.size ≤ after.arena.size
  definition_eq : ∀ id : TypeId, id.index < base → after.definition id = before.definition id
  provisional : ∃ added, after.provisional.entries = before.provisional.entries ++ added ∧
    ∀ entry ∈ added, after.HoldsFrom base entry.2
  bucket : ∀ name, ∃ added, after.bucket name = before.bucket name ++ added ∧
    ∀ declaration ∈ added, after.HoldsFrom base declaration.id

theorem Frame.holdsFrom {id : TypeId} (frame : Frame base before after)
    (held : before.HoldsFrom base id) : after.HoldsFrom base id :=
  ⟨held.1, Nat.lt_of_lt_of_le held.2 frame.size_le⟩

theorem Frame.refl (base : Nat) (catalog : Catalog) : Frame base catalog catalog where
  untouched := ⟨rfl, rfl, rfl, rfl, rfl⟩
  size_le := Nat.le_refl _
  definition_eq _ _ := rfl
  provisional := ⟨[], by simp, by simp⟩
  bucket name := ⟨[], by simp, by simp⟩

theorem Frame.trans {first second third : Catalog} (left : Frame base first second)
    (right : Frame base second third) : Frame base first third where
  untouched := left.untouched.trans right.untouched
  size_le := Nat.le_trans left.size_le right.size_le
  definition_eq id old := (right.definition_eq id old).trans (left.definition_eq id old)
  provisional := by
    obtain ⟨added, same, fresh⟩ := left.provisional
    obtain ⟨more, further, freshMore⟩ := right.provisional
    refine ⟨added ++ more, by rw [further, same, List.append_assoc], ?_⟩
    exact List.forall_mem_append.mpr
      ⟨fun entry member => right.holdsFrom (fresh entry member), freshMore⟩
  bucket name := by
    obtain ⟨added, same, fresh⟩ := left.bucket name
    obtain ⟨more, further, freshMore⟩ := right.bucket name
    refine ⟨added ++ more, by rw [further, same, List.append_assoc], ?_⟩
    exact List.forall_mem_append.mpr
      ⟨fun declaration member => right.holdsFrom (fresh declaration member), freshMore⟩

/-! ## Readings -/

/-- A name that is not known gets its entry behind all others. -/
theorem provisional_provide {name : String} (unknown : before.isKnown name = false)
    (id : TypeId) :
    (before.provide name id).provisional.entries = before.provisional.entries ++ [(name, id)] := by
  refine OrderedMap.put_of_not_mem id fun member => ?_
  obtain ⟨other, found⟩ := OrderedMap.mem_keys_iff.mp member
  simp [isKnown, known?, found] at unknown

theorem GrowthStep.frame (step : GrowthStep base before after)
    (start : base ≤ before.arena.size) : Frame base before after where
  untouched := step.untouched
  size_le := step.size_le
  definition_eq _ old := step.definition_eq start old
  provisional := by
    cases step with
    | @introduce word name resolved unknown =>
      refine ⟨[(name, before.next)], provisional_provide unknown _, ?_⟩
      simpa using! holdsFrom_next start _
    | _ => exact ⟨[], by simp, by simp⟩
  bucket name := by
    cases step with
    | @enlist declaration own =>
      rw [bucket_enlist]
      split
      · exact ⟨[declaration], rfl, by simpa using! own⟩
      · exact ⟨[], by simp, by simp⟩
    | _ => exact ⟨[], by simp [Catalog.bucket], by simp⟩

theorem Growth.frame (growth : Growth base before after) (start : base ≤ before.arena.size) :
    Frame base before after := by
  induction growth with
  | refl => exact .refl base before
  | tail earlier step ih => exact ih.trans (step.frame (Nat.le_trans start (Growth.size_le earlier)))

/-- The operation reads a text and defines no names with it. -/
def Operation.IsReading : Operation → Prop
  | .parseType _ => True
  | .parseFront _ => True
  | .parseDeclaration _ => True
  | operation => Operation.IsBlock operation

theorem growth_of_isReading {operation : Operation} (reads : Operation.IsReading operation)
    (catalog : Catalog) :
    Growth catalog.arena.size catalog (leaves operation.perform catalog) := by
  have start := Nat.le_refl catalog.arena.size
  cases operation with
  | parseType text =>
    refine ends_leaves_iff.mp ?_
    rw [Operation.perform, ends_map]
    exact (ends_parseType start text).mono (fun _ _ grown => grown.1) fun _ grown => grown
  | parseFront text =>
    refine ends_leaves_iff.mp ?_
    rw [Operation.perform, ends_map]
    exact (ends_parseFront start text).mono (fun _ _ grown => grown.1) fun _ grown => grown
  | parseDeclaration text =>
    refine ends_leaves_iff.mp ?_
    rw [Operation.perform, ends_map]
    exact (ends_parseDeclaration start text).mono (fun _ _ grown => grown.1) fun _ grown => grown
  | _ =>
    refine growth_of_isBlock ?_ catalog
    exact reads

/-- A reading leaves alone what was there, in any catalog and whether it succeeds or fails; what
it adds to the provisional names and to the buckets is new. -/
theorem frame_of_isReading {operation : Operation} (reads : Operation.IsReading operation)
    (catalog : Catalog) :
    Frame catalog.arena.size catalog (leaves operation.perform catalog) :=
  (growth_of_isReading reads catalog).frame (Nat.le_refl _)

/-- The second declaration of the block fails, when the first one and its body are read. -/
def brokenBlock : Operation :=
  .parseEntries ⟨some .write, true⟩ "x : Foo\n    a : list(Bar)\ny : list("

theorem frame_brokenBlock :
    Operation.IsReading brokenBlock ∧ succeeds brokenBlock.perform (empty.run [noteBlock]) = false ∧
      (empty.run [noteBlock, brokenBlock]).bucket "Foo" = [⟨⟨2⟩, .write⟩] ∧
      Frame (empty.run [noteBlock]).arena.size (empty.run [noteBlock])
        (leaves brokenBlock.perform (empty.run [noteBlock])) :=
  ⟨trivial, by decide +kernel, by decide +kernel,
    @frame_of_isReading brokenBlock trivial (empty.run [noteBlock])⟩

end DocShapes.Catalog
